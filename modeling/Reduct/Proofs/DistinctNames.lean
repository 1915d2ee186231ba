import Reduct.Proofs.LoadedPrograms
import Reduct.Proofs.NeatPrograms
import Reduct.Proofs.PredicateFuel

/-!
# Distinct names

The names of a specification that is accepted are told apart, whatever characters stand in it. Every
function has a name of its own. What is shared is exactly what the forms lead to, each once and for
nothing else. And a local name is drawn by one call and set by the code that it was drawn for, so
it is no parameter, no constant, and no other local.
-/

namespace Reduct

/-- The name of the language of a use. -/
def Use.language : Use → Symbol
  | .matcher language _ => language
  | .predicate language _ => language

/-- What a use needs is of the same language. -/
theorem Use.language_needs {languages : Table Language} {use other : Use}
    (needed : other ∈ use.needs languages) : other.language = use.language := by
  cases use with
  | matcher language pattern =>
    rcases List.mem_append.mp needed with part | tested
    · obtain ⟨_, _, rfl⟩ := List.mem_map.mp part
      rfl
    · obtain ⟨_, _, rfl⟩ := List.mem_map.mp tested
      rfl
  | predicate language stem =>
    rw [Use.needs] at needed
    split at needed
    · obtain ⟨_, _, rfl⟩ := List.mem_map.mp needed
      rfl
    · cases needed

namespace Draft

/-- The functions of a module are those of its draft. -/
theorem define_mem_statements {draft : Draft} {name : Symbol} {parameters : List Symbol}
    {body : List Statement} :
    .define name parameters body ∈ draft.statements ↔
      .define name parameters body ∈ draft.functions := by
  refine List.mem_append.trans (or_iff_right fun listed => ?_)
  obtain ⟨_, _, same⟩ := List.mem_mapIdx.mp listed
  cases same

/-- What a module sets outside of its functions are constants. -/
theorem assign_mem_statements {draft : Draft} (defines : draft.Defines) {target : Symbol}
    {value : Expression} (listed : .assign target value ∈ draft.statements) :
    ∃ index, target = constantName index := by
  rcases List.mem_append.mp listed with constant | function
  · obtain ⟨index, _, same⟩ := List.mem_mapIdx.mp constant
    cases same
    exact ⟨index, rfl⟩
  · cases defines.each _ function

theorem functionNames_statements (draft : Draft) (sources : List String) :
    (Module.mk sources draft.statements).functionNames = draft.definitions := by
  have constants :
      (Module.mk sources (draft.constants.mapIdx constantStatement)).functionNames = [] := by
    refine List.filterMap_eq_nil_iff.mpr fun statement listed => ?_
    obtain ⟨_, _, rfl⟩ := List.mem_mapIdx.mp listed
    rfl
  calc (Module.mk sources draft.statements).functionNames
      = (Module.mk sources (draft.constants.mapIdx constantStatement)).functionNames ++
          (Module.mk sources draft.functions).functionNames := List.filterMap_append
    _ = draft.definitions := by
      rw [constants, List.nil_append]
      rfl

theorem introduced_statements (draft : Draft) (word : Symbol) :
    (draft.statements.map (Statement.introduced word)).sum =
      (draft.functions.map (Statement.introduced word)).sum := by
  have constants : ((draft.constants.mapIdx constantStatement).map
      (Statement.introduced word)).sum = 0 := by
    refine List.sum_eq_zero fun count listed => ?_
    obtain ⟨statement, among, rfl⟩ := List.mem_map.mp listed
    obtain ⟨_, _, rfl⟩ := List.mem_mapIdx.mp among
    rfl
  rw [statements, List.map_append, List.sum_append, constants, Nat.zero_add]

/-- The entry of a key that is listed once is found. -/
theorem lookupIn_of_mem {κ : Type} [DecidableEq κ] {key : κ} {name : Symbol}
    {entries : List (κ × Symbol)} (once : (entries.map (·.1)).Nodup)
    (listed : (key, name) ∈ entries) : lookupIn key entries = some name := by
  cases found : lookupIn key entries with
  | none => exact absurd listed (not_mem_of_lookupIn_eq_none found name)
  | some other =>
    have same := List.inj_on_of_nodup_map once (mem_of_lookupIn_eq_some found) listed rfl
    exact congrArg (fun entry => some entry.2) same

theorem nodup_matchers {draft : Draft} (once : draft.uses.Nodup) :
    (draft.matchers.map (·.1)).Nodup := by
  rw [uses, memo, List.map_append, List.map_map] at once
  refine List.Nodup.of_map (fun key => Use.matcher key.1 key.2) ?_
  rw [List.map_map]
  exact (List.nodup_append.mp once).1

theorem nodup_predicates {draft : Draft} (once : draft.uses.Nodup) :
    (draft.predicates.map (·.1)).Nodup := by
  rw [uses, memo, List.map_append, List.map_map, List.map_map] at once
  refine List.Nodup.of_map (fun key => Use.predicate key.1 key.2) ?_
  rw [List.map_map]
  exact (List.nodup_append.mp once).2.1

end Draft

namespace Program

open Draft Statement

theorem Draws.same {before after : Draft} {names : List Symbol} (draws : Draws before names after) :
    ∃ count, after = { before with nameCount := count } := by
  induction draws with
  | nil => exact ⟨_, rfl⟩
  | cons _ _ ih =>
    obtain ⟨count, rfl⟩ := ih
    exact ⟨count, rfl⟩

/-- What a prepared form asks for was prepared. -/
theorem Follows.made_asks {names : Names} {made : Symbol → Pattern → Prepared → Prop}
    {body : FormBody} {form : PreparedForm} (follows : Follows names made body form) {use : Use}
    (listed : use ∈ form.asks) :
    ∃ pattern prepared, made use.language pattern prepared := by
  cases follows with
  | language | assertReduction _ | foreignSource => cases listed
  | @relation definition function domain cases named guard each =>
    rcases List.mem_append.mp listed with there | there
    · obtain ⟨prepared, among, rfl⟩ := List.mem_map.mp there
      obtain ⟨pattern, _, made⟩ := exists_of_mem_rel guard (Option.mem_toList.mp among)
      exact ⟨pattern, prepared, made⟩
    · obtain ⟨case, among, rfl⟩ := List.mem_map.mp there
      obtain ⟨written, _, made, _⟩ := exists_of_mem_right each among
      exact ⟨_, _, made⟩
  | @metafunction definition function contract cases named guard each =>
    rcases List.mem_append.mp listed with there | there
    · obtain ⟨contract, among, rfl⟩ := List.mem_map.mp there
      obtain ⟨written, _, made, _⟩ := exists_of_mem_rel guard (Option.mem_toList.mp among)
      exact ⟨_, _, made⟩
    · rcases List.mem_append.mp there with there | there
      · obtain ⟨contract, among, rfl⟩ := List.mem_map.mp there
        obtain ⟨written, _, _, made⟩ := exists_of_mem_rel guard (Option.mem_toList.mp among)
        exact ⟨_, _, made⟩
      · obtain ⟨case, among, rfl⟩ := List.mem_map.mp there
        obtain ⟨written, _, made, _⟩ := exists_of_mem_right each among
        exact ⟨_, _, made⟩
  | redexMatch matched | assertMatch matched =>
    obtain rfl := List.mem_singleton.mp listed
    exact ⟨_, _, matched⟩
  | assertTerm each _ =>
    obtain ⟨binding, among, rfl⟩ := List.mem_map.mp listed
    obtain ⟨written, _, made, _⟩ := exists_of_mem_right each among
    exact ⟨_, _, made⟩

namespace Compilation

variable {forms : List Form} {prints : Bool} (compilation : Compilation forms prints)

/-- The matchers that the code of the forms asks for. -/
def asks : List Use := compilation.prepared.flatMap PreparedForm.asks

/-- What is used is of a language of the specification. -/
theorem exists_language_of_reached {use : Use}
    (reached : use.Reached compilation.languages compilation.asks) :
    ∃ language, compilation.languages.find? use.language = some language := by
  obtain ⟨first, listed, chain⟩ := reached
  induction chain with
  | refl =>
    obtain ⟨prepared, among, asked⟩ := List.mem_flatMap.mp listed
    obtain ⟨form, _, follows⟩ := exists_of_mem_right compilation.advances.2 among
    obtain ⟨_, _, language, _, _, _, found, _⟩ := follows.made_asks asked
    exact ⟨language, found⟩
  | tail _ needed ih =>
    rw [Use.language_needs needed]
    exact ih

/-- How the code of the forms is generated. The list holds the local names that are drawn. -/
abbrev Run (names : List Symbol) : Prop :=
  Course (.of compilation.languages compilation.asks) [] compilation.asks (fun _ => 0)
    (fun results _ => (results.map fun _ => 0).sum)
    (generateAll compilation.scope (forms.zip compilation.prepared)) compilation.start names
    compilation.additions compilation.draft

/-- The code of the forms is generated from a draft without functions. -/
theorem exists_run : ∃ names, compilation.Run names := by
  have asks : compilation.asks = (forms.zip compilation.prepared).flatMap (·.2.asks) := by
    have second : (forms.zip compilation.prepared).map Prod.snd = compilation.prepared :=
      List.map_snd_zip compilation.advances.2.length_eq.ge
    calc compilation.asks
        = ((forms.zip compilation.prepared).map Prod.snd).flatMap PreparedForm.asks := by
          rw [second, Compilation.asks]
      _ = (forms.zip compilation.prepared).flatMap (·.2.asks) := List.flatMap_map ..
  have meets : compilation.scope.Meets (.of compilation.languages compilation.asks) :=
    ⟨rfl, fun name language found => (compilation.staged name language found).1⟩
  have allowed : ∀ item ∈ forms.zip compilation.prepared, ∀ use ∈ item.2.asks,
      use.Reached compilation.languages compilation.asks := by
    refine fun item listed use asked => ⟨use, ?_, .refl⟩
    rw [asks]
    exact List.mem_flatMap.mpr ⟨item, listed, asked⟩
  have works := works_generateAll meets allowed
  rw [← asks] at works
  obtain ⟨count, same⟩ := compilation.collects.2.same
  have start : Neat (.of compilation.languages compilation.asks) [] compilation.start := by
    rw [same]
    exact ⟨.nil, nofun, nofun, nofun⟩
  exact works .zero [] _ _ _ compilation.generates start

/-- The names of a compiled specification are told apart. The list holds the local names that were
drawn, in their order. -/
structure WellNamed (names : List Symbol) : Prop where
  /-- No two functions of the module have one name. -/
  functions : compilation.program.code.functionNames.Nodup
  /-- Every use is shared once. -/
  once : compilation.draft.uses.Nodup
  /-- No function is shared for two uses. -/
  apart : (compilation.draft.memo.map (·.2)).Nodup
  /-- What is shared is what the forms lead to. -/
  used : ∀ use, use ∈ compilation.draft.uses ↔
    use.Reached compilation.languages compilation.asks
  /-- A function that is shared for a pattern is the matcher that is compiled for the pattern. -/
  matchers : ∀ language pattern name, (.matcher language pattern, name) ∈ compilation.draft.memo →
    ∃ found, compilation.languages.find? language = some found ∧
      HasMatcher found compilation.draft pattern name
  /-- A function that is shared for a non-terminal is the predicate that is compiled for its
  rule. -/
  predicates : ∀ language stem name, (.predicate language stem, name) ∈ compilation.draft.memo →
    ∃ found, compilation.languages.find? language = some found ∧
      HasPredicate found compilation.draft stem name
  /-- There are no other matchers. -/
  onlyMatchers : ∀ name body,
    .define name Matcher.parameters body ∈ compilation.program.code.body →
      ∃ language pattern, (.matcher language pattern, name) ∈ compilation.draft.memo
  /-- There are no other predicates, which are the functions of a term that end with false. -/
  onlyPredicates : ∀ name body,
    .define name [Matcher.whole] body ∈ compilation.program.code.body →
      body.getLast? = some (.returns (.bool false)) →
      ∃ language stem, (.predicate language stem, name) ∈ compilation.draft.memo
  /-- No two calls draw one local name. -/
  locals : names.Nodup
  /-- No local name is a parameter. -/
  parameters : ∀ name parameters body,
    .define name parameters body ∈ compilation.program.code.body →
      ∀ parameter ∈ parameters, parameter ∉ names
  /-- No local name is a constant of the module. -/
  constants : ∀ target value, .assign target value ∈ compilation.program.code.body →
    target ∉ names
  /-- A function sets every variable in one place, but for the updates of its loops, and sets no
  parameter. -/
  single : ∀ name parameters body,
    .define name parameters body ∈ compilation.program.code.body →
      ∀ word, parameters.count word + introductions body word ≤ 1
  /-- All functions together set a variable in no more places than calls have drawn its name, but
  for the two that predicates have for themselves. -/
  owned : ∀ word, word ≠ Matcher.terms → word ≠ Matcher.env →
    (compilation.program.code.body.map (introduced word)).sum ≤ names.count word

variable {compilation} {names : List Symbol}

theorem Run.nodup (run : compilation.Run names) : names.Nodup := by
  have apart := run.logged.slots.distinct .nil nofun
  rw [List.nil_append] at apart
  exact apart.imp fun differ => differ.symm

/-- The functions set a local name in no more places than calls have drawn it. -/
theorem Run.drawn_le (run : compilation.Run names) (word : Symbol) :
    compilation.draft.drawn word ≤ names.count word := by
  have bounded := run.bounded word
  obtain ⟨count, same⟩ := compilation.collects.2.same
  have undrawn : compilation.start.drawn word = 0 := by
    rw [same]
    exact ite_self _
  omega

theorem Run.orderly (run : compilation.Run names) {name : Symbol} {parameters : List Symbol}
    {body : List Statement}
    (listed : .define name parameters body ∈ compilation.program.code.body) :
    Orderly compilation.draft.memo name parameters body :=
  run.neat.orderly _ _ _ (define_mem_statements.mp listed)

theorem Run.single (run : compilation.Run names) {name : Symbol} {parameters : List Symbol}
    {body : List Statement}
    (listed : .define name parameters body ∈ compilation.program.code.body) (word : Symbol) :
    parameters.count word + introductions body word ≤ 1 := by
  have orderly := run.orderly listed
  by_cases plain : EndsPlain word.toList
  · exact orderly.once word plain
  · have absent : parameters.count word = 0 :=
      List.count_eq_zero.mpr fun among => plain (orderly.plain word among)
    have few : names.count word ≤ 1 := List.nodup_iff_count_le_one.mp run.nodup word
    have drawn := run.drawn_le word
    rw [Draft.drawn, if_neg plain] at drawn
    have part : introductions body word ≤
        (compilation.draft.functions.map (introduced word)).sum :=
      List.le_sum_of_mem (List.mem_map.mpr ⟨_, define_mem_statements.mp listed, rfl⟩)
    omega

theorem Run.owned (run : compilation.Run names) {word : Symbol} (terms : word ≠ Matcher.terms)
    (env : word ≠ Matcher.env) :
    (compilation.program.code.body.map (introduced word)).sum ≤ names.count word := by
  change (compilation.draft.statements.map (introduced word)).sum ≤ _
  rw [introduced_statements]
  by_cases plain : EndsPlain word.toList
  · have other : [Matcher.terms, Matcher.env].count word = 0 := by
      refine List.count_eq_zero.mpr fun listed => ?_
      rcases List.mem_cons.mp listed with same | later
      · exact terms same
      · exact env (List.mem_singleton.mp later)
    have none : ∀ statement ∈ compilation.draft.functions, introduced word statement = 0 := by
      intro statement among
      cases statement with
      | define name parameters body =>
        have words := (run.neat.orderly name parameters body among).words word plain
        rw [other] at words
        exact Nat.le_zero.mp words
      | _ => rfl
    rw [List.map_eq_replicate_iff.mpr none, List.sum_replicate]
    exact Nat.zero_le _
  · have drawn := run.drawn_le word
    rwa [Draft.drawn, if_neg plain] at drawn

theorem Run.exists_language (run : compilation.Run names) {use : Use} {name : Symbol}
    (shared : (use, name) ∈ compilation.draft.memo) :
    ∃ found, compilation.languages.find? use.language = some found ∧ found.name = use.language := by
  have reached := run.neat.allowed use (mem_uses shared)
  obtain ⟨found, known⟩ := compilation.exists_language_of_reached reached
  exact ⟨found, known, (compilation.staged _ found known).1⟩

/-- The names of a specification that is read are told apart. -/
theorem Run.wellNamed (run : compilation.Run names) (read : ∀ form ∈ forms, form.Read) :
    compilation.WellNamed names := by
  obtain ⟨sound, defines, _⟩ := compilation.final read (Form.composed_of_read read)
  have slots := run.logged.slots
  refine
    { functions := ?_
      once := run.neat.once
      apart := ?_
      used := fun use => ⟨run.neat.allowed use, run.neat.shares run.serves⟩
      matchers := fun language pattern name shared => ?_
      predicates := fun language stem name shared => ?_
      onlyMatchers := fun _ _ listed => (run.orderly listed).matcher rfl
      onlyPredicates := fun _ _ listed last => (run.orderly listed).predicate rfl last
      locals := run.nodup
      parameters := fun _ _ _ listed parameter among =>
        slots.not_mem_of_endsPlain ((run.orderly listed).plain parameter among)
      constants := fun target value listed among => ?_
      single := fun _ _ _ => run.single
      owned := fun _ => run.owned }
  · change (Module.mk _ compilation.draft.statements).functionNames.Nodup
    rw [functionNames_statements]
    exact defines.distinct
  · rw [← reserved_eq]
    exact sound.once
  · obtain ⟨found, known, rfl⟩ := run.exists_language shared
    have reserved := lookupIn_of_mem (nodup_matchers run.neat.once) (mem_memo_matcher.mp shared)
    exact ⟨found, known, (sound.matchers found ⟨_, known⟩ pattern name reserved).resolve_left nofun⟩
  · obtain ⟨found, known, rfl⟩ := run.exists_language shared
    have reserved :=
      lookupIn_of_mem (nodup_predicates run.neat.once) (mem_memo_predicate.mp shared)
    exact ⟨found, known, (sound.predicates found ⟨_, known⟩ stem name reserved).resolve_left nofun⟩
  · obtain ⟨index, rfl⟩ := assign_mem_statements defines listed
    obtain ⟨number, above, slot⟩ := slots.exists_slot among
    exact older_constantName index _ number above slot

end Compilation

namespace Accepted

variable {source : String} {prints : Bool} (accepted : Accepted source prints)

/-- The names of an accepted specification are told apart, where the local names are those that the
calls of the generator draw. And a predicate is compiled in every draft that the generator meets,
with fuel for the rules that are not reserved yet: more fuel changes nothing, so recursive grammars
need no more rounds than they have rules. -/
theorem names_apart :
    (∃ names, Logs (generateAll accepted.compilation.scope
        (accepted.forms.zip accepted.compilation.prepared)) accepted.compilation.start names
        accepted.compilation.additions accepted.compilation.draft ∧
      accepted.compilation.WellNamed names) ∧
    ∀ language, accepted.compilation.HasLanguage language → ∀ stem, language.HasRule stem →
      ∀ pending draft, draft.Sound accepted.compilation.HasLanguage pending →
        ∃ name after, ∀ fuel, unreserved language draft ≤ fuel →
          Yields (Matcher.predicate language fuel stem) draft name after := by
  obtain ⟨names, run⟩ := accepted.compilation.exists_run
  refine ⟨⟨names, run.logged, run.wellNamed accepted.read⟩, ?_⟩
  rintro language ⟨name, found⟩ stem ruled pending draft sound
  have ready := (accepted.compilation.ready_legible accepted.read).ready name language found
  exact Matcher.exists_predicate accepted.compilation.preparation.apart ⟨name, found⟩ ready.closed
    ruled sound

end Accepted

/-- Two languages with a non-terminal of one name, which is recursive in the first, and three uses
of one pattern. -/
def recursiveGrammars : String :=
  "(define-language L (e ::= (e e) 1)) (define-language K (e ::= 1)) " ++
    "(redex-match L e_1 1) (redex-match L e_1 (1 1)) (redex-match K e_1 1)"

/-- The functions of the two languages. -/
def recursiveFunctions : List Symbol :=
  ["match_nt_e_3", "match_nt_e_4", "match_sequence_2", "match_literal_1_5", "isa_L_e_1",
    "match_nt_e_0", "matches_L_6", "redex_match_7", "matches_L_8", "redex_match_9",
    "match_literal_1_12", "isa_K_e_11", "match_nt_e_10", "matches_K_13", "redex_match_14"]

/-- The two uses of the pattern with one language share a function, and the use with the other
language has its own. -/
theorem names_apart_recursiveGrammars :
    ∃ accepted : Accepted recursiveGrammars false,
      accepted.program.code.functionNames = recursiveFunctions ∧
      (∃ names, Logs (generateAll accepted.compilation.scope
          (accepted.forms.zip accepted.compilation.prepared)) accepted.compilation.start names
          accepted.compilation.additions accepted.compilation.draft ∧
        accepted.compilation.WellNamed names) ∧
      ∃ language, accepted.compilation.HasLanguage language ∧ language.HasRule "e" ∧
        ∃ name after, ∀ fuel, unreserved language .empty ≤ fuel →
          Yields (Matcher.predicate language fuel "e") .empty name after := by
  have tested : (stages? recursiveGrammars false).any (fun stages =>
      decide (stages.2.definitions = recursiveFunctions) &&
        decide ((("L", "e"), "isa_L_e_1") ∈ stages.2.predicates)) = true := by decide +kernel
  match stages : stages? recursiveGrammars false with
  | none =>
    rw [stages] at tested
    cases tested
  | some (forms, draft) =>
    rw [stages] at tested
    obtain ⟨accepted, rfl, rfl⟩ := exists_accepted (by decide +kernel) stages
    obtain ⟨functions, shared⟩ := Bool.and_eq_true_iff.mp tested
    obtain ⟨⟨names, logs, wellNamed⟩, terminates⟩ := accepted.names_apart
    obtain ⟨language, known, rule, _, _, _, _, ruled, _⟩ := wellNamed.predicates "L" "e" _
      (mem_memo_predicate.mpr (of_decide_eq_true shared))
    refine ⟨accepted, ?_, ⟨names, logs, wellNamed⟩, language, ⟨_, known⟩, ⟨rule, ruled⟩, ?_⟩
    · exact (functionNames_statements _ _).trans (of_decide_eq_true functions)
    · exact terminates language ⟨_, known⟩ "e" ⟨rule, ruled⟩ [] .empty (sound_empty _)

end Program

end Reduct
