import Reduct.Proofs.EntryVerdicts
import Reduct.Proofs.FormOrder

/-!
# The meaning of forms in another order

What a specification means does not depend on the order of its forms. In the end its languages have
the same rules and the same literal variables, so patterns have the same matches, and names stand
for the same relations and metafunctions. What they give is the same at every level, and so an
entry that returns in one order does not fail in another.
-/

namespace Reduct

/-- Options are related if either gives something only beside a relative. -/
theorem rel_of_exists {α β : Type} {related : α → β → Prop} {item : Option α} {other : Option β}
    (here : ∀ found, item = some found → ∃ result, other = some result ∧ related found result)
    (there : ∀ result, other = some result → ∃ found, item = some found) :
    Option.Rel related item other := by
  cases item with
  | some found =>
    obtain ⟨result, rfl, holds⟩ := here found rfl
    exact .some holds
  | none =>
    cases other with
    | none => exact .none
    | some result =>
      obtain ⟨_, missing⟩ := there result rfl
      cases missing

/-- Related options are both there, or neither is. -/
theorem rel_cases {α β : Type} {related : α → β → Prop} {item : Option α} {other : Option β}
    (rel : Option.Rel related item other) : (item = none ∧ other = none) ∨
      ∃ found result, item = some found ∧ other = some result ∧ related found result := by
  cases rel with
  | none => exact .inl ⟨rfl, rfl⟩
  | some holds => exact .inr ⟨_, _, rfl, rfl, holds⟩

/-! ## Languages -/

namespace Language

/-- Languages in which the same patterns have the same matches. -/
structure Alike (one two : Language) : Prop where
  kin : one.Kin two
  mentioned : one.mentioned = two.mentioned

variable {one two : Language}

theorem Alike.reading (alike : one.Alike two) : one.reading = two.reading := by
  rw [Language.reading, Language.reading, alike.kin.alternativesOf, alike.mentioned]

theorem Alike.search (alike : one.Alike two) : one.search = two.search := by
  have grounds : one.ground = two.ground := by
    rw [ground, ground, alike.reading, alike.mentioned]
  funext resolved term
  rw [Language.search, Language.search, grounds]

theorem Alike.resolved? (alike : one.Alike two) : one.resolved? = two.resolved? := by
  funext pattern
  rw [Language.resolved?, Language.resolved?, alike.kin.names]

end Language

/-! ## Worlds -/

namespace World

/-- Worlds with the same host, in which languages, relations and metafunctions say the same under
their names. -/
structure Agrees (one two : World) : Prop where
  host : one.host = two.host
  languages : ∀ name, Option.Rel Language.Alike (one.languages.find? name)
    (two.languages.find? name)
  relations : ∀ name, Option.Rel (fun definition other => definition.unplaced = other.unplaced)
    (one.relation? name) (two.relation? name)
  metafunctions : ∀ name, Option.Rel (fun definition other => definition.unplaced = other.unplaced)
    (one.metafunction? name) (two.metafunction? name)

section Unplaced

variable (world : World) (apply : Symbol → Term → Attempt Term)

theorem related_unplaced (definition : RelationDefinition) :
    world.related apply definition.unplaced = world.related apply definition := by
  funext term
  unfold related
  rw [RelationDefinition.unplaced, List.mapM_map]
  rfl

theorem firstCase_unplaced (language : Symbol) (lead : String) (arguments : Term)
    (cases_ : List MetafunctionCase) :
    world.firstCase apply language lead arguments (cases_.map MetafunctionCase.unplaced) =
      world.firstCase apply language lead arguments cases_ := by
  induction cases_ with
  | nil => rfl
  | cons case rest ih =>
    rw [List.map_cons, firstCase, firstCase, ih]
    rfl

theorem applied_unplaced (definition : MetafunctionDefinition) :
    world.applied apply definition.unplaced = world.applied apply definition := by
  funext arguments
  unfold applied
  rw [MetafunctionDefinition.unplaced, firstCase_unplaced]

end Unplaced

/-- The names of the metafunctions stand for one each. -/
theorem mem_metafunctions_iff (world : World) {name : Symbol} :
    name ∈ (world.forms.filterMap Form.metafunction?).map (·.name) ↔
      ∃ definition, world.metafunction? name = some definition := by
  rw [← Option.isSome_iff_exists, metafunction?, List.find?_isSome]
  simp

namespace Agrees

variable {one two : World} (agrees : one.Agrees two)

include agrees

theorem found : one.found = two.found := by
  funext language pattern term
  unfold World.found
  rcases rel_cases (agrees.languages language) with
    ⟨here, there⟩ | ⟨known, other, here, there, alike⟩
  · rw [here, there]
  · rw [here, there]
    change ExceptT.lift (Option.bind _ _) = ExceptT.lift (Option.bind _ _)
    rw [Option.bind_some, Option.bind_some, alike.resolved?, alike.search]

theorem depths : one.depths = two.depths := by
  have resolved : one.resolved? = two.resolved? := by
    funext language pattern
    unfold World.resolved?
    rcases rel_cases (agrees.languages language) with
      ⟨here, there⟩ | ⟨known, other, here, there, alike⟩
    · rw [here, there]
    · rw [here, there, Option.bind_some, Option.bind_some, alike.resolved?]
  funext language patterns
  rw [World.depths, World.depths, resolved]

theorem require : one.require = two.require := by
  funext language lead term pattern
  cases pattern with
  | none => rfl
  | some pattern => rw [World.require, World.require, agrees.found]

theorem scene : one.scene = two.scene := by
  have names : one.metafunctions = two.metafunctions := by
    refine SymbolSet.ofList_congr fun name => ?_
    rw [one.mem_metafunctions_iff, two.mem_metafunctions_iff]
    rcases rel_cases (agrees.metafunctions name) with ⟨here, there⟩ | ⟨_, _, here, there, _⟩
    · rw [here, there]
    · exact iff_of_true ⟨_, here⟩ ⟨_, there⟩
  funext apply depths assignment
  rw [World.scene, World.scene, names, agrees.host]

theorem built : one.built = two.built := by
  funext apply language pattern template bindings
  rw [World.built, World.built, agrees.scene, agrees.depths]

/-- A relation gives the same. -/
theorem related : one.related = two.related := by
  have results : one.caseResults = two.caseResults := by
    funext apply language term case
    rw [caseResults, caseResults, agrees.found, agrees.built]
  funext apply definition term
  rw [World.related, World.related, agrees.require, results]

/-- A metafunction gives the same. -/
theorem applied : one.applied = two.applied := by
  have first : one.firstCase = two.firstCase := by
    funext apply language lead arguments cases_
    induction cases_ with
    | nil => rfl
    | cons case rest ih => rw [firstCase, firstCase, ih, agrees.found, agrees.built]
  funext apply definition arguments
  rw [World.applied, World.applied, agrees.require, first]

/-- A metafunction comes to the same at every level. -/
theorem applyAt (level : Nat) : one.applyAt level = two.applyAt level := by
  induction level with
  | zero => rfl
  | succ level ih =>
    funext function arguments
    rw [World.applyAt, World.applyAt, ih]
    rcases rel_cases (agrees.metafunctions function) with
      ⟨here, there⟩ | ⟨definition, other, here, there, same⟩
    · rw [here, there]
    · rw [here, there]
      change one.applied _ definition arguments = two.applied _ other arguments
      rw [agrees.applied, ← two.applied_unplaced, same, two.applied_unplaced]

/-- An entry passes in both. -/
theorem passes (body : FormBody) : one.Passes body ↔ two.Passes body := by
  cases body with
  | assertMatch language pattern term expected =>
    simp only [Passes]
    rcases rel_cases (agrees.languages language) with
      ⟨here, there⟩ | ⟨known, other, here, there, alike⟩
    · rw [here, there]
    · simp only [here, there, Option.some.injEq, exists_and_left, exists_eq_left', alike.reading,
        alike.resolved?]
  | assertTerm language bindings template expected =>
    simp only [Passes, agrees.found, agrees.depths, agrees.scene, agrees.applyAt]
  | assertReduction relation term expected =>
    simp only [Passes]
    rcases rel_cases (agrees.relations relation) with
      ⟨here, there⟩ | ⟨definition, other, here, there, same⟩
    · simp [here, there]
    · have relates : ∀ level, one.relateAt level definition = two.relateAt level other := by
        intro level
        funext argument
        rw [relateAt, relateAt, agrees.related, agrees.applyAt, ← two.related_unplaced, same,
          two.related_unplaced]
      simp only [here, there, Option.some.injEq, exists_and_left, exists_eq_left', relates]
  | _ => exact Iff.rfl

end Agrees

end World

namespace Program

variable {forms others : List Form} {prints : Bool}

namespace Reorders

/-- What is told of forms wherever they stand is told of them in another order. -/
theorem mem_flatMap {α : Type} {parts : Form → List α}
    (kept : ∀ {one two : Form}, one.body.unplaced = two.body.unplaced → parts one = parts two)
    (same : Reorders forms others) {part : α} :
    part ∈ forms.flatMap parts ↔ part ∈ others.flatMap parts := by
  have within : ∀ {some other : List Form}, Reorders some other →
      part ∈ some.flatMap parts → part ∈ other.flatMap parts := by
    intro some other same listed
    obtain ⟨form, among, inside⟩ := List.mem_flatMap.mp listed
    obtain ⟨twin, there, alike⟩ := same.exists_form among
    exact List.mem_flatMap.mpr ⟨twin, there, kept alike ▸ inside⟩
  exact ⟨within same, within same.symm⟩

/-- The literal variables of a language are the same for the forms in another order. -/
theorem mem_literals (same : Reorders forms others) {definition other : LanguageDefinition}
    (alike : definition.unplaced = other.unplaced) {word : Symbol} :
    word ∈ definition.literals forms ↔ word ∈ other.literals others := by
  obtain ⟨name, rules⟩ := definition
  obtain ⟨_, later⟩ := other
  obtain ⟨rfl, each⟩ := LanguageDefinition.mk.inj alike
  have alternatives : rules.flatMap (·.alternatives) = later.flatMap (·.alternatives) := by
    have flat := congrArg (List.flatMap RuleDefinition.alternatives) each
    rwa [List.flatMap_map, List.flatMap_map] at flat
  have names : LanguageDefinition.names ⟨name, rules⟩ = LanguageDefinition.names ⟨name, later⟩ := by
    have listed := congrArg (List.map RuleDefinition.name) each
    rw [List.map_map, List.map_map] at listed
    exact congrArg SymbolSet.ofList listed
  unfold LanguageDefinition.literals
  rw [List.mem_append, List.mem_append, List.mem_flatMap, List.mem_flatMap, names, alternatives]
  refine or_congr_right (exists_congr fun use => and_congr_left' ?_)
  rw [List.mem_filter, List.mem_filter, same.mem_flatMap Form.uses_of_unplaced]

end Reorders

namespace Compilation

/-- A language of a compilation is like that of its name for the forms in another order. -/
theorem exists_alike (compilation : Compilation forms prints) (again : Compilation others prints)
    (same : Reorders forms others) {name : Symbol} {language : Language}
    (found : compilation.languages.find? name = some language) :
    ∃ other, again.languages.find? name = some other ∧ language.Alike other := by
  obtain ⟨_, definition, span, listed, rfl, stage⟩ := compilation.staged name language found
  obtain ⟨twin, place, among, alike⟩ := same.exists_language listed
  have named : definition.unplaced.name = twin.unplaced.name := congrArg (·.name) alike
  obtain ⟨other, there⟩ := again.preparation.exists_language among
  have called : again.languages.find? definition.name = some other :=
    (congrArg again.languages.find? named).trans there
  refine ⟨other, called, compilation.preparation.kin same listed stage again.staged called, ?_⟩
  rw [compilation.preparation.mentioned_eq listed found, again.preparation.mentioned_eq among there]
  exact SymbolSet.ofList_congr fun word => same.mem_literals alike

/-- A name stands for the one relation that a form defines under it. -/
theorem relation?_of_mem (compilation : Compilation forms prints) (host : Host)
    {definition : RelationDefinition} {span : Span}
    (listed : ⟨.relation definition, span⟩ ∈ forms) :
    (compilation.world host).relation? definition.name = some definition := by
  refine compilation.find?_of_mem (fun form other defines => ?_) listed rfl
  rw [Form.relation?_eq_some.mp defines]
  rfl

theorem exists_relation_again (compilation : Compilation forms prints)
    (again : Compilation others prints) (same : Reorders forms others) (host : Host) {name : Symbol}
    {definition : RelationDefinition}
    (found : (compilation.world host).relation? name = some definition) :
    ∃ other, (again.world host).relation? name = some other ∧
      definition.unplaced = other.unplaced := by
  obtain ⟨rfl, span, listed⟩ := World.exists_of_relation? found
  obtain ⟨other, place, among, alike⟩ := same.exists_relation listed
  have named : definition.unplaced.name = other.unplaced.name := congrArg (·.name) alike
  exact ⟨other, (congrArg (again.world host).relation? named).trans
    (again.relation?_of_mem host among), alike⟩

theorem exists_metafunction_again (compilation : Compilation forms prints)
    (again : Compilation others prints) (same : Reorders forms others) (host : Host) {name : Symbol}
    {definition : MetafunctionDefinition}
    (found : (compilation.world host).metafunction? name = some definition) :
    ∃ other, (again.world host).metafunction? name = some other ∧
      definition.unplaced = other.unplaced := by
  obtain ⟨rfl, span, listed⟩ := World.exists_of_metafunction? found
  obtain ⟨other, place, among, alike⟩ := same.exists_metafunction listed
  have named : definition.unplaced.name = other.unplaced.name := congrArg (·.name) alike
  exact ⟨other, (congrArg (again.world host).metafunction? named).trans
    (again.metafunction?_of_mem host among), alike⟩

/-- The clauses of a specification mean the same in another order. -/
theorem agrees (compilation : Compilation forms prints) (again : Compilation others prints)
    (same : Reorders forms others) (host : Host) :
    (compilation.world host).Agrees (again.world host) where
  host := rfl
  languages _ := rel_of_exists (fun _ => compilation.exists_alike again same) fun _ found =>
    (again.exists_alike compilation same.symm found).imp fun _ => And.left
  relations _ := rel_of_exists (fun _ => compilation.exists_relation_again again same host)
    fun _ found => (again.exists_relation_again compilation same.symm host found).imp
      fun _ => And.left
  metafunctions _ := rel_of_exists (fun _ => compilation.exists_metafunction_again again same host)
    fun _ found => (again.exists_metafunction_again compilation same.symm host found).imp
      fun _ => And.left

end Compilation

end Program

end Reduct
