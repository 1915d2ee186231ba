import Reduct.Proofs.ClauseMeaning
import Reduct.Proofs.FinalDrafts

/-!
# What a compilation means

A compilation that succeeds leaves languages with all of their literal variables. With the forms
and a host they are a world, in which every pattern of the forms has matches, and in which the
depths that the patterns were prepared with are those of the patterns as they are written.
-/

namespace Reduct

/-! ## Resolution -/

/-- What an action gives does not depend on the literal variables that are known before. -/
def Oblivious {α : Type} (action : Resolving α) : Prop :=
  ∀ one two, (action.run one).1 = (action.run two).1

namespace Oblivious

variable {α β : Type}

theorem pure (result : α) : Oblivious (Pure.pure result : Resolving α) := fun _ _ => rfl

theorem throw (fault : Fault) : Oblivious (MonadExcept.throw fault : Resolving α) := fun _ _ => rfl

theorem mention (name : Symbol) : Oblivious (Reduct.mention name) := fun _ _ => rfl

theorem bind {first : Resolving α} {next : α → Resolving β} (one : Oblivious first)
    (rest : ∀ result, Oblivious (next result)) : Oblivious (first >>= next) := by
  intro left right
  have same := one left right
  rw [run_bind_eq, run_bind_eq]
  match here : first.run left, there : first.run right with
  | (one, known), (two, other) =>
    rw [here, there] at same
    have equal : one = two := same
    subst equal
    cases one with
    | error fault => rfl
    | ok result => exact rest result known other

end Oblivious

namespace Pattern

theorem oblivious_ofSymbol (names : SymbolSet) (symbol : Symbol) :
    Oblivious (ofSymbol names symbol) := by
  unfold ofSymbol
  split
  · exact .pure _
  · exact .pure _
  · exact .throw _
  · exact (Oblivious.mention _).bind fun _ => .pure _

mutual

/-- What a pattern is resolved to does not depend on the literal variables that are known. -/
theorem oblivious_resolve (names : SymbolSet) : (pattern : Pattern) →
    Oblivious (pattern.resolve names)
  | .unresolved symbol => by
    rw [resolve]
    exact oblivious_ofSymbol names symbol
  | .sequence items => by
    rw [resolve]
    exact (oblivious_resolveAll names items).bind fun _ => .pure _
  | .repeated inner mode => by
    rw [resolve]
    exact (oblivious_resolve names inner).bind fun _ => .pure _
  | .inHole context contents checks => by
    rw [resolve]
    exact (oblivious_resolve names context).bind fun _ =>
      (oblivious_resolve names contents).bind fun _ => .pure _
  | .literal (.symbol name) => by
    rw [resolve]
    exact (Oblivious.mention name).bind fun _ => .pure _
  | .literal (.integer _) | .literal (.float _) | .literal (.string _) | .literal (.boolean _)
  | .nonTerminal _ _ | .builtIn _ _ | .check _ => by
    rw [resolve]
    · exact .pure _
    all_goals nofun

theorem oblivious_resolveAll (names : SymbolSet) : (items : List Pattern) →
    Oblivious (resolveAll names items)
  | [] => .pure _
  | item :: rest => by
    rw [resolveAll]
    exact (oblivious_resolve names item).bind fun _ =>
      (oblivious_resolveAll names rest).bind fun _ => .pure _

end

/-- A bare symbol binds itself at most. -/
theorem occurrences_ofSymbol {names before after : SymbolSet} {symbol : Symbol}
    {resolved : Pattern} (accepted : (ofSymbol names symbol).run before = (.ok resolved, after)) :
    ∀ bound ∈ resolved.occurrences, bound = symbol := by
  unfold ofSymbol at accepted
  intro bound listed
  split at accepted
  · cases accepted
    exact List.mem_singleton.mp listed
  · cases accepted
    rename_i kind _
    cases bindable : kind.isBindable <;>
      simp_all [occurrences, bindingSymbol?]
  · cases accepted
  · cases accepted
    cases listed

mutual

/-- A written pattern binds bare symbols only. -/
theorem occurrences_resolve {names : SymbolSet} : (pattern : Pattern) → {resolved : Pattern} →
    {before after : SymbolSet} → pattern.isWritten = true →
    (pattern.resolve names).run before = (.ok resolved, after) →
    ∀ symbol ∈ resolved.occurrences, symbol ∈ pattern.bareSymbols
  | .unresolved symbol, _, _, _, _, accepted => by
    rw [resolve] at accepted
    exact fun bound listed => List.mem_singleton.mpr (occurrences_ofSymbol accepted bound listed)
  | .sequence items, _, _, _, written, accepted => by
    rw [resolve] at accepted
    obtain ⟨all, middle, first, last⟩ := run_bind_eq_ok.mp accepted
    obtain ⟨rfl, rfl⟩ := run_pure_eq_ok.mp last
    exact occurrencesAll_resolveAll items written first
  | .inHole context contents checks, _, _, _, written, accepted => by
    simp only [isWritten, Bool.and_eq_true] at written
    rw [resolve] at accepted
    obtain ⟨outer, middle, first, rest⟩ := run_bind_eq_ok.mp accepted
    obtain ⟨inner, later, second, last⟩ := run_bind_eq_ok.mp rest
    obtain ⟨rfl, rfl⟩ := run_pure_eq_ok.mp last
    intro symbol listed
    exact List.mem_append.mpr ((List.mem_append.mp listed).imp
      (occurrences_resolve context written.1.2 first symbol)
      (occurrences_resolve contents written.2 second symbol))
  | .builtIn kind name, _, _, _, written, accepted => by
    cases accepted
    simp_all [isWritten, occurrences, bindingSymbol?]
  | .literal (.symbol _), _, _, _, _, accepted | .literal (.integer _), _, _, _, _, accepted
  | .literal (.float _), _, _, _, _, accepted | .literal (.string _), _, _, _, _, accepted
  | .literal (.boolean _), _, _, _, _, accepted => by
    cases accepted
    nofun
  | .repeated _ _, _, _, _, written, _ | .nonTerminal _ _, _, _, _, written, _
  | .check _, _, _, _, written, _ => by cases written

theorem occurrencesAll_resolveAll {names : SymbolSet} : (items : List Pattern) →
    {resolved : List Pattern} → {before after : SymbolSet} → areWritten items = true →
    (resolveAll names items).run before = (.ok resolved, after) →
    ∀ symbol ∈ occurrencesAll resolved, symbol ∈ bareSymbolsAll items
  | [], _, _, _, _, accepted => by
    cases accepted
    nofun
  | item :: rest, _, _, _, written, accepted => by
    rw [resolveAll] at accepted
    obtain ⟨first, middle, here, later⟩ := run_bind_eq_ok.mp accepted
    obtain ⟨others, last, there, final⟩ := run_bind_eq_ok.mp later
    obtain ⟨rfl, rfl⟩ := run_pure_eq_ok.mp final
    intro symbol listed
    refine List.mem_append.mpr ((List.mem_append.mp listed).imp (fun inside => ?_) fun after => ?_)
    · cases item with
      | repeated inner mode =>
        rw [resolve] at here
        obtain ⟨body, _, round, last⟩ := run_bind_eq_ok.mp here
        obtain ⟨rfl, rfl⟩ := run_pure_eq_ok.mp last
        exact occurrences_resolve inner (Bool.and_eq_true_iff.mp written).1 round symbol inside
      | _ => exact occurrences_resolve _ (Bool.and_eq_true_iff.mp written).1 here symbol inside
    · have later : areWritten rest = true := by
        cases item with
        | _ => exact (Bool.and_eq_true_iff.mp written).2
      exact occurrencesAll_resolveAll rest later there symbol after

end

end Pattern

/-- A table made of a list finds what another table finds, where that is what is listed. -/
theorem Table.find?_ofList_of_iff {α : Type} {table : Table α} {entries : List (Symbol × α)}
    {key : Symbol} (same : ∀ value, table.find? key = some value ↔ (key, value) ∈ entries) :
    (Table.ofList entries).find? key = table.find? key := by
  cases found : (Table.ofList entries).find? key with
  | some value => exact ((same value).mpr (mem_of_find?_ofList found)).symm
  | none =>
    cases known : table.find? key with
    | none => rfl
    | some value =>
      obtain ⟨other, there⟩ := exists_find?_ofList ((same value).mp known)
      rw [there] at found
      cases found

/-- The members of the keys of a table are those that are found. -/
theorem SymbolSet.contains_keys {α : Type} {table : Table α} {name : Symbol} :
    (SymbolSet.ofList table.keys).contains name = true ↔ ∃ value, table.find? name = some value := by
  rw [SymbolSet.contains_ofList, Table.keys, List.mem_map]
  constructor
  · rintro ⟨⟨key, value⟩, listed, rfl⟩
    exact Table.exists_find?_of_mem listed
  · rintro ⟨value, found⟩
    exact ⟨(name, value), Table.mem_of_find? found, rfl⟩

/-- Lists that are related item by item are so in another way that their items allow. -/
theorem forall₂_imp_mem {α β : Type} {one two : α → β → Prop} {items : List α} {others : List β}
    (all : List.Forall₂ one items others)
    (stronger : ∀ item ∈ items, ∀ other ∈ others, one item other → two item other) :
    List.Forall₂ two items others := by
  induction all with
  | nil => exact .nil
  | cons first _ ih =>
    refine .cons (stronger _ List.mem_cons_self _ List.mem_cons_self first) (ih ?_)
    exact fun item listed other among =>
      stronger item (List.mem_cons_of_mem _ listed) other (List.mem_cons_of_mem _ among)

theorem rel_imp_mem {α β : Type} {one two : α → β → Prop} {item : Option α} {other : Option β}
    (rel : Option.Rel one item other)
    (stronger : ∀ found ∈ item, ∀ result, one found result → two found result) :
    Option.Rel two item other := by
  cases rel with
  | none => exact .none
  | some here => exact .some (stronger _ rfl _ here)

/-- The fresh names of a prepared pattern have the mark of generated names. -/
theorem Language.Prepares.marked {definition : LanguageDefinition} {span : Span}
    {pattern resolved : Pattern} {prepared : Prepared} {language : Language}
    (prepares : Prepares definition span pattern resolved prepared language) :
    ∀ symbol ∈ prepared.synthetic, Symbol.isSynthetic symbol = true := by
  obtain ⟨fresh, _, _, _, synthetic⟩ := prepares.exists_depths
  rw [synthetic]
  exact (Pattern.numbers_insertChecks resolved fresh).marked

namespace Program

/-- What is made of the patterns of a form may be described in another way. -/
theorem Follows.imp {names : Names} {made other : Symbol → Pattern → Prepared → Prop}
    {form : Form} {prepared : PreparedForm} (follows : Follows names made form.body prepared)
    (stronger : ∀ use ∈ form.uses, ∀ prepared, made use.1 use.2 prepared →
      other use.1 use.2 prepared) : Follows names other form.body prepared := by
  obtain ⟨body, span⟩ := form
  cases follows with
  | language => exact .language
  | @relation definition function domain cases named guard each =>
    have used : ∀ pattern ∈ definition.domain.toList ++ definition.cases.map (·.pattern),
        ∀ prepared, made definition.language pattern prepared →
          other definition.language pattern prepared :=
      fun pattern among => stronger (definition.language, pattern) (List.mem_map_of_mem among)
    refine .relation named (rel_imp_mem guard fun pattern there => ?_)
      (forall₂_imp_mem each fun case there result _ => ?_)
    · exact used pattern (List.mem_append_left _ (Option.mem_toList.mpr there))
    · exact And.imp_left (used _ (List.mem_append_right _ (List.mem_map_of_mem there)) _)
  | @metafunction definition function contract cases named guard each =>
    have used : ∀ pattern ∈ definition.contract.toList.flatMap Contract.patterns ++
        definition.cases.map (Pattern.sequence ·.arguments), ∀ prepared,
          made definition.language pattern prepared → other definition.language pattern prepared :=
      fun pattern among => stronger (definition.language, pattern) (List.mem_map_of_mem among)
    refine .metafunction named (rel_imp_mem guard fun contract there result => ?_)
      (forall₂_imp_mem each fun case there result _ => ?_)
    · have inside : ∀ pattern ∈ contract.patterns, ∀ prepared,
          made definition.language pattern prepared → other definition.language pattern prepared :=
        fun pattern listed => used pattern (List.mem_append_left _
          (List.mem_flatMap.mpr ⟨contract, Option.mem_toList.mpr there, listed⟩))
      exact And.imp (inside _ (by simp [Contract.patterns]) _)
        (inside _ (by simp [Contract.patterns]) _)
    · exact And.imp_left (used _ (List.mem_append_right _ (List.mem_map_of_mem there)) _)
  | redexMatch matched => exact .redexMatch (stronger _ (List.mem_singleton.mpr rfl) _ matched)
  | assertMatch matched => exact .assertMatch (stronger _ (List.mem_singleton.mpr rfl) _ matched)
  | @assertTerm language bindings template expected results depths each joined =>
    refine .assertTerm (forall₂_imp_mem each fun binding there result _ => ?_) joined
    exact And.imp_left (stronger (language, binding.1) (List.mem_map_of_mem there) _)
  | assertReduction named => exact .assertReduction named
  | foreignSource => exact .foreignSource

/-- Functions are named for the metafunctions that the forms define. -/
theorem Names.Collects.contains_metafunctions {forms : List Form} {names : Names}
    (collects : (⟨.empty, .empty, .empty, .empty⟩ : Names).Collects names forms) {name : Symbol} :
    (SymbolSet.ofList names.metafunctions.keys).contains name = true ↔
      ∃ definition span, ⟨.metafunction definition, span⟩ ∈ forms ∧ definition.name = name := by
  rw [SymbolSet.contains_keys]
  constructor
  · rintro ⟨function, found⟩
    exact (collects.metafunction name function found).resolve_left nofun
  · rintro ⟨definition, span, listed, rfl⟩
    exact collects.has _ listed

namespace Compilation

open Draft

variable {forms : List Form} {prints : Bool} (compilation : Compilation forms prints)

/-- What the clauses of a compiled specification refer to, on a host. -/
def world (host : Host) : World := ⟨forms, compilation.languages, host⟩

/-- A pattern that is read, has no marked symbols and was prepared for a language. -/
structure Uses (name : Symbol) (pattern : Pattern) (prepared : Prepared) : Prop where
  made : Made forms compilation.languages name pattern prepared
  read : pattern.Read
  unmarked : ∀ symbol ∈ pattern.bareSymbols, Symbol.isSynthetic symbol = false

/-- The patterns of the forms are used as they are written. -/
theorem uses (read : ∀ form ∈ forms, form.Read) (unmarked : ∀ form ∈ forms, form.Unmarked) :
    List.Forall₂ (fun form => Follows compilation.names compilation.Uses form.body) forms
      compilation.prepared := by
  refine forall₂_imp_mem compilation.advances.2 fun form listed prepared _ follows => ?_
  exact follows.imp fun use among result made =>
    ⟨made, (read form listed).uses use among, (unmarked form listed).1 use among⟩

/-- The metafunctions that the code of the forms knows are those that the forms define. -/
theorem contains_metafunctions (host : Host) (name : Symbol) :
    (SymbolSet.ofList compilation.scope.metafunctions.keys).contains name =
      (compilation.world host).metafunctions.contains name := by
  refine Bool.eq_iff_iff.mpr (compilation.collects.1.contains_metafunctions.trans ?_)
  rw [World.metafunctions, SymbolSet.contains_ofList, List.mem_map]
  constructor
  · rintro ⟨definition, span, listed, called⟩
    exact ⟨definition, List.mem_filterMap.mpr ⟨_, listed, rfl⟩, called⟩
  · rintro ⟨definition, listed, called⟩
    obtain ⟨⟨body, span⟩, among, defines⟩ := List.mem_filterMap.mp listed
    obtain rfl : body = .metafunction definition := Form.metafunction?_eq_some.mp defines
    exact ⟨definition, span, among, called⟩

namespace Uses

variable {compilation} {name : Symbol} {pattern : Pattern} {prepared : Prepared}
  (read : ∀ form ∈ forms, form.Read) (uses : compilation.Uses name pattern prepared) (host : Host)

include uses

/-- What a pattern is resolved to, and the language that it was prepared for. -/
theorem exists_resolved : ∃ language definition span resolved,
    compilation.languages.find? name = some language ∧
    ⟨.language definition, span⟩ ∈ forms ∧ language.resolved? pattern = some resolved ∧
    Language.Prepares definition span pattern resolved prepared language ∧
    ∀ symbol ∈ resolved.occurrences, Symbol.isSynthetic symbol = false := by
  obtain ⟨language, definition, span, resolved, found, listed, _, prepares⟩ := uses.made
  obtain ⟨⟨before, after, resolves⟩, _⟩ := prepares.made
  refine ⟨language, definition, span, resolved, found, listed, ?_, prepares, fun symbol bound => ?_⟩
  · have same := Pattern.oblivious_resolve language.names pattern before .empty
    rw [resolves] at same
    rw [Language.resolved?, ← same]
  · exact uses.unmarked symbol
      (Pattern.occurrences_resolve pattern uses.read.written resolves symbol bound)

/-- The depths of a prepared pattern are those of the symbols as they are written. -/
theorem find?_depths {symbol : Symbol} (plain : Symbol.isSynthetic symbol = false) :
    ((compilation.world host).depths name [pattern]).find? symbol = prepared.depths.find? symbol := by
  obtain ⟨language, _, _, resolved, found, _, resolves, prepares, _⟩ := uses.exists_resolved
  have known : (compilation.world host).resolved? name pattern = some resolved := by
    rw [World.resolved?, show (compilation.world host).languages.find? name = some language from found]
    exact resolves
  rw [World.depths, List.flatMap_singleton, known]
  exact Table.find?_ofList_of_iff fun depth => prepares.find?_depths plain

include read

/-- The matches of a pattern are there, and the search with the prepared pattern finds them. -/
theorem exists_found (term : Term) : ∃ language resolved found,
    compilation.languages.find? name = some language ∧
    language.resolved? pattern = some resolved ∧
    (compilation.world host).found name pattern term = some (.ok found) ∧
    language.HoldsMatches resolved term found ∧
    (visit language.ground prepared.pattern term .empty).map
      (List.map (Bindings.eraseAll prepared.synthetic)) = some found := by
  obtain ⟨language, definition, span, resolved, known, listed, resolves, prepares, plain⟩ :=
    uses.exists_resolved
  obtain ⟨grammar, defined⟩ := prepares.stage.defined (read _ listed).definition.1
  have unmarked : ∀ symbol ∈ resolved.boundSymbols, Symbol.isSynthetic symbol = false :=
    fun symbol bound => plain symbol (Pattern.mem_boundSymbols.mp bound)
  obtain ⟨found, searched, holds⟩ := prepares.exists_search defined uses.read.written unmarked term
  refine ⟨language, resolved, found, known, resolves, ?_, holds, ?_⟩
  · refine Attempt.lift_eq_some.mpr ⟨found, ?_, rfl⟩
    rw [show (compilation.world host).languages.find? name = some language from known]
    change (language.resolved? pattern).bind _ = _
    rw [resolves]
    exact searched
  · rw [prepares.search_eq defined uses.read.written unmarked, searched]

/-- The matches of a pattern are finished and well-formed. -/
theorem finished {term : Term} {found : List Bindings}
    (searched : (compilation.world host).found name pattern term = some (.ok found)) :
    ∀ bindings ∈ found, bindings.Finished ∧ bindings.WellFormed := by
  obtain ⟨language, resolved, results, known, resolves, also, holds, _⟩ :=
    uses.exists_found read host term
  obtain ⟨other, definition, span, again, there, listed, resolution, prepares, plain⟩ :=
    uses.exists_resolved
  rw [known] at there
  cases there
  rw [resolves] at resolution
  cases resolution
  obtain ⟨grammar, defined⟩ := prepares.stage.defined (read _ listed).definition.1
  obtain ⟨_, ran, same⟩ := Attempt.lift_eq_some.mp searched
  cases same
  rw [show (compilation.world host).languages.find? name = some language from known] at ran
  change (language.resolved? pattern).bind _ = _ at ran
  rw [resolves] at ran
  rw [also] at searched
  cases searched
  have unmarked : ∀ symbol ∈ resolved.boundSymbols, Symbol.isSynthetic symbol = false :=
    fun symbol bound => plain symbol (Pattern.mem_boundSymbols.mp bound)
  exact fun bindings among => ⟨holds.1 bindings among,
    prepares.wellFormed_search defined uses.read.written unmarked ran bindings among⟩

end Uses

end Compilation

end Program

end Reduct
