import Reduct.Proofs.DraftAdditions
import Reduct.Proofs.LiteralVariables
import Reduct.Proofs.TemplateCode

/-!
# The code of a form

Generating the code of a form keeps the draft sound. Names that were drawn for functions before
wait until their functions are defined: they are reserved for no matcher and for no predicate, and
no name that is drawn later is one of them.
-/

namespace Reduct

namespace Draft

theorem Yields.unique {α : Type} {action : Drafting α} {before after last : Draft}
    {result other : α} (one : Yields action before result after)
    (two : Yields action before other last) : result = other ∧ after = last := by
  have same := one.symm.trans two
  cases same
  exact ⟨rfl, rfl⟩

/-- A steady step that succeeds keeps a good draft good. -/
theorem Steady.keeps {α : Type} {good : Draft → Prop} {action : Drafting α}
    (steady : Steady good action) {before after : Draft} {result : α} (fine : good before)
    (yields : Yields action before result after) : good after := by
  obtain ⟨_, last, again, still⟩ := steady.succeeds before fine
  rw [(yields.unique again).2]
  exact still

/-- The order of the names that are not finished plays no part. -/
theorem Sound.perm {languages : Language → Prop} {pending others : List Symbol} {draft : Draft}
    (sound : draft.Sound languages pending) (same : pending.Perm others) :
    draft.Sound languages others where
  named := ((same.append_right _).nodup_iff).mp sound.named
  once := sound.once
  numbered name listed :=
    sound.numbered name (((same.append_right _).append_right _).mem_iff.mpr listed)
  matchers language known pattern name found :=
    (sound.matchers language known pattern name found).imp_left same.mem_iff.mp
  predicates language known stem name found :=
    (sound.predicates language known stem name found).imp_left same.mem_iff.mp
  mentioned := sound.mentioned

/-- A compilation for some languages has gone on. -/
structure Continues (good : Atom → Prop) (languages : Language → Prop) (before after : Draft) :
    Prop where
  grows : before.Grows after
  adds : before.Adds good after
  sound : ∀ pending, before.Sound languages pending → after.Sound languages pending

section Continuing

variable {good : Atom → Prop} {languages : Language → Prop} {α β : Type}

theorem lenient_continues (good : Atom → Prop) (languages : Language → Prop) :
    Lenient good (Continues good languages) where
  refl draft := ⟨.refl draft, .refl draft, fun _ => id⟩
  trans _ _ _ one two := ⟨one.grows.trans two.grows, one.adds.trans two.adds,
    fun pending => two.sound pending ∘ one.sound pending⟩
  locals draft :=
    { grows := ⟨List.prefix_refl _, fun _ => id, fun _ _ => id, fun _ _ => id, fun _ _ => id,
        Nat.le_succ _⟩
      adds := lenient_adds.locals draft
      sound := fun pending => (stable_sound pending).locals draft }
  constants draft term composed :=
    { grows := ⟨List.prefix_append _ _, fun _ => id, fun _ _ => id, fun _ _ => id, fun _ _ => id,
        Nat.le_refl _⟩
      adds := lenient_adds.constants draft term composed
      sound := fun pending => (stable_sound pending).constants draft term }

/-- What is steady on sound drafts and adds what may be added goes on with a compilation. -/
theorem continues_of_steady {action : Drafting α}
    (steady : ∀ pending, Steady (Sound languages pending) action) (adds : Moves (Adds good) action) :
    Moves (Continues good languages) action := fun _ _ _ yields =>
  { grows := (steady []).grows _ _ _ yields
    adds := adds _ _ _ yields
    sound := fun pending fine => (steady pending).keeps fine yields }

/-- A name that was drawn is reserved for nothing. -/
structure Waits (name : Symbol) (draft : Draft) : Prop where
  unreserved : name ∉ draft.reserved
  numbered : ∃ number < draft.nameCount, Numbered name number

theorem Waits.adds {name : Symbol} {before after : Draft} (waits : Waits name before)
    (adds : before.Adds good after) : Waits name after where
  unreserved listed := by
    obtain ⟨number, below, numbered⟩ := waits.numbered
    rcases adds.reserved name listed with earlier | ⟨other, above, again⟩
    · exact waits.unreserved earlier
    · exact numbered.ne again (by omega) rfl
  numbered := by
    obtain ⟨number, below, numbered⟩ := waits.numbered
    exact ⟨number, Nat.lt_of_lt_of_le below adds.nameCount, numbered⟩

/-- A name that waits is finished with its function. -/
theorem Sound.define {name : Symbol} {pending : List Symbol} {draft : Draft}
    (sound : draft.Sound languages (name :: pending)) (waits : Waits name draft)
    (parameters : List Symbol) (body : List Statement) :
    Sound languages pending
      { draft with functions := draft.functions ++ [.define name parameters body] } := by
  refine sound.finish rfl ?_ ?_
  · intro language _ pattern found
    exact absurd (List.mem_append_left _ (mem_of_lookupIn found)) waits.unreserved
  · intro language _ stem found
    exact absurd (List.mem_append_right _ (mem_of_lookupIn found)) waits.unreserved

/-- A step goes on with a compilation and ends with the definition of a function. -/
def Closes (good : Atom → Prop) (languages : Language → Prop) (name : Symbol)
    (action : Drafting α) : Prop :=
  ∀ before result after, Yields action before result after →
    ∃ middle parameters body, Continues good languages before middle ∧
      after = { middle with functions := middle.functions ++ [.define name parameters body] }

theorem Closes.bind {name : Symbol} {first : Drafting α} {next : α → Drafting β}
    (one : Moves (Continues good languages) first)
    (two : ∀ before value after, Yields first before value after →
      Closes good languages name (next value)) : Closes good languages name (first >>= next) := by
  intro before result after yields
  obtain ⟨value, middle, begun, ended⟩ := yields_bind.mp yields
  obtain ⟨last, parameters, body, continues, same⟩ := two _ _ _ begun _ _ _ ended
  exact ⟨last, parameters, body,
    (lenient_continues good languages).trans _ _ _ (one _ _ _ begun) continues, same⟩

theorem Closes.withLocal {name : Symbol} {hint : String} {next : Symbol → Drafting β}
    (rest : ∀ word, Closes good languages name (next word)) :
    Closes good languages name (freshLocal hint >>= next) :=
  .bind ((lenient_continues good languages).freshLocal hint) fun _ word _ _ => rest word

/-- A function is defined, and a result is given. -/
theorem closes_define (good : Atom → Prop) (languages : Language → Prop) (name : Symbol)
    (parameters : List Symbol) (body : List Statement) (result : α) :
    Closes good languages name (addFunction name parameters body >>= fun _ => pure result) := by
  intro before given after yields
  obtain ⟨_, middle, added, yields⟩ := yields_bind.mp yields
  obtain rfl := yields_modify.mp added
  obtain ⟨_, rfl⟩ := yields_pure.mp yields
  exact ⟨before, parameters, body, (lenient_continues good languages).refl before, rfl⟩

/-- A step that defines a function, as the compilation had meant to, goes on with it. -/
theorem Closes.grows {name : Symbol} {action : Drafting α}
    (closes : Closes good languages name action) {before after : Draft} {result : α}
    (yields : Yields action before result after) : before.Grows after ∧ before.Adds good after := by
  obtain ⟨middle, parameters, body, continues, rfl⟩ := closes _ _ _ yields
  exact ⟨continues.grows.trans (grows_addFunction _ _),
    continues.adds.trans (adds_addFunction name parameters body middle ⟨⟩ _ (yields_modify.mpr rfl))⟩

/-- The name of the function is finished. -/
theorem Closes.sound {name : Symbol} {action : Drafting α}
    (closes : Closes good languages name action) {before after : Draft} {result : α}
    (yields : Yields action before result after) {pending : List Symbol}
    (sound : before.Sound languages (name :: pending)) (waits : Waits name before) :
    after.Sound languages pending := by
  obtain ⟨middle, parameters, body, continues, rfl⟩ := closes _ _ _ yields
  exact (continues.sound _ sound).define (waits.adds continues.adds) parameters body

/-- A name is drawn for a function that is defined at the end. -/
theorem continues_drawn {kind hint : String} {next : Symbol → Drafting α}
    (closes : ∀ name, Closes good languages name (next name)) :
    Moves (Continues good languages) (freshFunction kind hint >>= next) := by
  intro before result after yields
  obtain ⟨name, middle, drawn, rest⟩ := yields_bind.mp yields
  obtain ⟨grows, adds⟩ := (closes name).grows rest
  obtain ⟨numbered, rfl⟩ := yields_freshFunction drawn
  refine ⟨?_, (adds_freshFunction kind hint _ _ _ drawn).trans adds, fun pending sound => ?_⟩
  · have drawing : before.Grows { before with nameCount := before.nameCount + 1 } :=
      ⟨List.prefix_refl _, fun _ => id, fun _ _ => id, fun _ _ => id, fun _ _ => id, Nat.le_refl _⟩
    exact drawing.trans grows
  · have waits : Waits name { before with nameCount := before.nameCount + 1 } :=
      ⟨sound.unreserved numbered, before.nameCount, Nat.lt_succ_self _, numbered⟩
    exact (closes name).sound rest (sound.draw numbered) waits

end Continuing

end Draft

/-- A language whose matchers can be compiled. -/
structure Language.Ready (good : Atom → Prop) (language : Language) : Prop where
  closed : language.Closed
  plain : ∀ rule ∈ language.rules, ∀ alternative ∈ rule.alternatives,
    alternative.pattern.spellsHole = false
  composed : language.Composed good

/-- A prepared pattern whose matcher can be compiled. -/
structure Prepared.Ready (good : Atom → Prop) (prepared : Prepared) (language : Language) :
    Prop where
  placed : prepared.pattern.isPlaced = true
  plain : prepared.pattern.spellsHole = false
  ruled : ∀ stem ∈ prepared.pattern.stems, language.HasRule stem
  good : ∀ value ∈ prepared.pattern.atoms, good value

namespace Construction

open Draft Statement Template

/-- The function of an annotated template is compiled. -/
theorem continues_compile {good : Atom → Prop} {languages : Language → Prop}
    {table : Table Symbol} {depths : Depths} {metafunctions : SymbolSet} {template : Template}
    {annotated : Annotated}
    (known : ∀ function, metafunctions.contains function = true →
      ∃ target, table.find? function = some target)
    (accepted : template.annotate depths metafunctions = .ok annotated)
    (composed : template.Constants depths (Term.Composed good)) :
    Moves (Continues good languages) (compile table annotated) := by
  refine continues_drawn fun name => ?_
  refine .bind (continues_of_steady (fun pending => ?_) ?_) fun _ fetched _ fetches => ?_
  · rw [fetchVariables_eq]
    exact steady_fetchEach (stable_sound pending) _ _ _ _ _
  · rw [fetchVariables_eq]
    exact adds_fetchEach _ _ _ _ _
  · refine .bind (continues_of_steady (fun pending => ?_) ?_) fun _ _ _ _ =>
      closes_define good languages name _ _ name
    · exact steady_asTerm (stable_sound pending)
        (steady_build (stable_sound pending) known template accepted (covers_fetched accepted fetches))
        annotated
    · exact adds_asTerm (adds_build (composed_annotateAt composed accepted) _) _

end Construction

namespace Matcher

open Draft

/-- The top-level matcher of a prepared pattern is compiled. -/
theorem continues_compileTop {good : Atom → Prop} {languages : Language → Prop}
    (apart : Apart languages) {language : Language} (listed : languages language)
    (ready : language.Ready good)
    {prepared : Prepared} (fits : prepared.Ready good language) :
    Moves (Continues good languages) (compileTop language prepared) := by
  intro before name after yields
  have made : ∀ pending, before.Sound languages pending →
      after.Sound languages pending := by
    intro pending sound
    obtain ⟨_, last, again, still, _⟩ :=
      exists_compileTop apart listed ready.closed fits.placed fits.ruled sound
    rw [(yields.unique again).2]
    exact still
  refine ⟨?_, adds_compileTop ready.composed fits.good _ _ _ yields, made⟩
  have steady := (admissible_predicate ready.closed language.rules.length).compileWith
    (Pattern.isItem_of_isPlaced fits.placed) (fun _ _ => trivial) []
  obtain ⟨inner, middle, compiled, rest⟩ := yields_bind.mp yields
  refine (steady.grows _ _ _ compiled).trans ?_
  have closes : ∀ drawn, Closes good (fun _ => False) drawn (do
      let results ← freshLocal "rs"
      let out ← freshLocal "out"
      let entry ← freshLocal "m"
      let position ← freshLocal "h"
      let kept ← freshLocal "m"
      let drops := prepared.synthetic.map fun symbol =>
        Statement.perform .matchRemove [.name kept, .string symbol]
      addFunction drawn [whole]
        [Statement.assignPrimitive terms .wrapTerm [.name whole],
          Statement.assignPrimitive env .newMatch [],
          callOnWhole results inner terms env,
          Statement.assignPrimitive out .newList [],
          .forEach [entry, position] results
            (Statement.assignPrimitive kept .matchCopy [.name entry] :: drops ++
              [Statement.perform .listAppend [.name out, .name kept]]),
          .returns (.name out)]
      pure drawn) := by
    intro drawn
    iterate 5 refine .withLocal fun _ => ?_
    exact closes_define good _ drawn _ _ drawn
  exact (continues_drawn closes _ _ _ rest).grows

end Matcher

/-- A key with an entry is found. -/
theorem Table.exists_find?_of_mem {α : Type} {table : Table α} {key : Symbol} {value : α}
    (listed : (key, value) ∈ table.entries) : ∃ found, table.find? key = some found := by
  obtain ⟨entries⟩ := table
  change ∃ found, findIn key entries = some found
  induction entries with
  | nil => cases listed
  | cons entry rest ih =>
    obtain ⟨other, kept⟩ := entry
    rw [findIn]
    split
    · exact ⟨kept, rfl⟩
    · rename_i differ
      rcases List.mem_cons.mp listed with same | later
      · cases same
        exact absurd rfl differ
      · exact ih later

namespace Program

open Draft Statement

variable {good : Atom → Prop} {languages : Language → Prop} {scope : Scope} {span : Span}

/-- The languages of a scope can be compiled for. -/
structure Scope.Ready (good : Atom → Prop) (scope : Scope) (languages : Language → Prop) :
    Prop where
  apart : Apart languages
  listed : ∀ name language, scope.languages.find? name = some language → languages language
  ready : ∀ name language, scope.languages.find? name = some language → language.Ready good

/-- A pattern was prepared for a language of a scope. -/
def Scope.Suits (good : Atom → Prop) (scope : Scope) (name : Symbol) (prepared : Prepared) : Prop :=
  ∃ language, scope.languages.find? name = some language ∧ prepared.Ready good language

theorem continues_topMatcher (ready : scope.Ready good languages) {language : Symbol}
    {prepared : Prepared} (suits : scope.Suits good language prepared) :
    Moves (Continues good languages) (topMatcher scope language prepared) := by
  obtain ⟨found, there, fits⟩ := suits
  unfold topMatcher
  rw [there]
  exact Matcher.continues_compileTop ready.apart (ready.listed _ _ there) (ready.ready _ _ there)
    fits

/-- Every metafunction of a scope has a function. -/
theorem Scope.exists_function (scope : Scope) : ∀ function,
    (SymbolSet.ofList scope.metafunctions.keys).contains function = true →
      ∃ target, scope.metafunctions.find? function = some target := by
  intro function listed
  rw [SymbolSet.contains_ofList] at listed
  obtain ⟨entry, there, rfl⟩ := List.mem_map.mp listed
  exact Table.exists_find?_of_mem there

theorem continues_construction {depths : Depths} {template : Template}
    (composed : template.Constants depths (Term.Composed good)) :
    Moves (Continues good languages) (construction scope depths template) := by
  unfold construction
  split
  · exact moves_throw _
  · rename_i annotated accepted
    exact Construction.continues_compile scope.exists_function accepted composed

theorem continues_matchesAny (matcher term check : Symbol) :
    Moves (Continues good languages) (matchesAny matcher term check) := by
  have lenient := lenient_continues good languages
  iterate 2 refine lenient.withLocal fun _ => ?_
  exact lenient.pure _

theorem continues_raiseTerm (lead : String) (term : Symbol) :
    Moves (Continues good languages) (raiseTerm lead term) := by
  have lenient := lenient_continues good languages
  iterate 2 refine lenient.withLocal fun _ => ?_
  exact lenient.pure _

theorem continues_raiseMismatch (write : Primitive) (expected actual : Symbol) :
    Moves (Continues good languages) (raiseMismatch write expected actual) := by
  have lenient := lenient_continues good languages
  iterate 5 refine lenient.withLocal fun _ => ?_
  exact lenient.pure _

theorem continues_requireMatch (ready : scope.Ready good languages) {language : Symbol}
    {prepared : Prepared} (suits : scope.Suits good language prepared) (term : Symbol)
    (lead : String) :
    Moves (Continues good languages) (requireMatch scope language prepared term lead) := by
  have lenient := lenient_continues good languages
  refine lenient.withLocal fun _ => lenient.bind (continues_topMatcher ready suits) fun _ => ?_
  refine lenient.bind (continues_matchesAny _ _ _) fun _ => ?_
  exact lenient.bind (continues_raiseTerm _ _) fun _ => lenient.pure _

/-- A case of a relation or of a metafunction can be compiled. -/
def Scope.SuitsCase (good : Atom → Prop) (scope : Scope) (language : Symbol)
    (case : Prepared × Template) : Prop :=
  scope.Suits good language case.1 ∧ case.2.Constants case.1.depths (Term.Composed good)

theorem continues_relationCase (ready : scope.Ready good languages) {language : Symbol}
    {case : Prepared × Template} (suits : scope.SuitsCase good language case) (term out : Symbol) :
    Moves (Continues good languages) (relationCase scope language term out case) := by
  have lenient := lenient_continues good languages
  refine lenient.bind (continues_topMatcher ready suits.1) fun _ => ?_
  refine lenient.bind (continues_construction suits.2) fun _ => ?_
  iterate 3 refine lenient.withLocal fun _ => ?_
  exact lenient.pure _

theorem closes_relation (ready : scope.Ready good languages) {language : Symbol}
    {domain : Option Prepared} {cases : List (Prepared × Template)}
    (guard : ∀ pattern ∈ domain, scope.Suits good language pattern)
    (each : ∀ case ∈ cases, scope.SuitsCase good language case) (name function : Symbol) :
    Closes good languages function
      (generate scope span (.relation name function language domain cases)) := by
  have lenient := lenient_continues good languages
  rw [generate, relation]
  simp only [bind_assoc]
  refine .withLocal fun _ => .bind (lenient.mapM fun pattern listed => ?_) fun _ _ _ _ => ?_
  · exact continues_requireMatch ready (guard pattern (Option.mem_toList.mp listed)) _ _
  · refine .bind (lenient.mapM fun case listed => ?_) fun _ _ _ _ => ?_
    · exact continues_relationCase ready (each case listed) _ _
    · exact closes_define good languages function _ _ _

theorem continues_codomain (codomain : Option Symbol) (lead : String) (result : Symbol) :
    Moves (Continues good languages) (codomain.toList.mapM fun codomain => do
      let check ← freshLocal "ok"
      let test ← matchesAny codomain result check
      let failure ← raiseTerm lead result
      pure (test ++ [whenFalse check failure])) := by
  have lenient := lenient_continues good languages
  refine lenient.mapM fun checker _ => lenient.withLocal fun _ => ?_
  refine lenient.bind (continues_matchesAny _ _ _) fun _ => ?_
  exact lenient.bind (continues_raiseTerm _ _) fun _ => lenient.pure _

theorem continues_metafunctionCase (ready : scope.Ready good languages) {language : Symbol}
    {case : Prepared × Template} (suits : scope.SuitsCase good language case) (name arguments : Symbol)
    (codomain : Option Symbol) : Moves (Continues good languages)
      (metafunctionCase scope name language arguments codomain case) := by
  have lenient := lenient_continues good languages
  refine lenient.bind (continues_topMatcher ready suits.1) fun _ => ?_
  refine lenient.bind (continues_construction suits.2) fun _ => ?_
  iterate 5 refine lenient.withLocal fun _ => ?_
  exact lenient.bind (continues_codomain _ _ _) fun _ => lenient.pure _

theorem closes_metafunction (ready : scope.Ready good languages) {language : Symbol}
    {contract : Option (Prepared × Prepared)} {cases : List (Prepared × Template)}
    (guard : ∀ patterns ∈ contract,
      scope.Suits good language patterns.1 ∧ scope.Suits good language patterns.2)
    (each : ∀ case ∈ cases, scope.SuitsCase good language case) (name function : Symbol) :
    Closes good languages function
      (generate scope span (.metafunction name function language contract cases)) := by
  have lenient := lenient_continues good languages
  rw [generate, metafunction]
  simp only [bind_assoc]
  refine .bind (lenient.mapM fun patterns listed => ?_) fun _ _ _ _ => ?_
  · exact continues_requireMatch ready (guard patterns (Option.mem_toList.mp listed)).1 _ _
  · refine .bind ?_ fun _ _ _ _ => .bind (lenient.mapM fun case listed => ?_) fun _ _ _ _ => ?_
    · cases contract with
      | none => exact lenient.pure _
      | some patterns =>
        exact lenient.bind (continues_topMatcher ready (guard patterns rfl).2) fun _ => lenient.pure _
    · exact continues_metafunctionCase ready (each case listed) _ _ _
    · exact .bind (continues_raiseTerm _ _) fun _ _ _ _ => closes_define good languages function _ _ _

theorem continues_expectedBindings (wanted : Symbol) {bindings : List (Symbol × Term)}
    (composed : ∀ binding ∈ bindings, binding.2.Composed good) :
    Moves (Continues good languages) (expectedBindings wanted bindings) := by
  have lenient := lenient_continues good languages
  refine lenient.withLocal fun _ => lenient.bind (lenient.mapM fun binding listed => ?_) fun _ =>
    lenient.pure _
  exact lenient.bind (lenient.constant (composed binding listed)) fun _ => lenient.pure _

theorem continues_mergeBinding (ready : scope.Ready good languages) {language : Symbol}
    {binding : Prepared × Term} (suits : scope.Suits good language binding.1)
    (composed : binding.2.Composed good) (env : Symbol) :
    Moves (Continues good languages) (mergeBinding scope language env binding) := by
  have lenient := lenient_continues good languages
  refine lenient.bind (continues_topMatcher ready suits) fun _ => ?_
  refine lenient.bind (lenient.constant composed) fun _ => ?_
  iterate 4 refine lenient.withLocal fun _ => ?_
  exact lenient.bind (continues_raiseTerm _ _) fun _ => lenient.pure _

/-- The code of a form can be generated: its patterns suit their languages, and its constants are
composed of good atoms. -/
inductive PreparedForm.Ready (good : Atom → Prop) (scope : Scope) : PreparedForm → Prop
  | language : Ready good scope .language
  | relation {name function language : Symbol} {domain : Option Prepared}
      {cases : List (Prepared × Template)}
      (guard : ∀ pattern ∈ domain, scope.Suits good language pattern)
      (each : ∀ case ∈ cases, scope.SuitsCase good language case) :
      Ready good scope (.relation name function language domain cases)
  | metafunction {name function language : Symbol} {contract : Option (Prepared × Prepared)}
      {cases : List (Prepared × Template)}
      (guard : ∀ patterns ∈ contract,
        scope.Suits good language patterns.1 ∧ scope.Suits good language patterns.2)
      (each : ∀ case ∈ cases, scope.SuitsCase good language case) :
      Ready good scope (.metafunction name function language contract cases)
  | redexMatch {language : Symbol} {pattern : Prepared} {term : Term} {description : String}
      (suits : scope.Suits good language pattern) (composed : term.Composed good) :
      Ready good scope (.redexMatch language pattern term description)
  | assertMatch {language : Symbol} {pattern : Prepared} {term : Term}
      {expected : List (List (Symbol × Term))} {description : String}
      (suits : scope.Suits good language pattern) (composed : term.Composed good)
      (wanted : ∀ bindings ∈ expected, ∀ binding ∈ bindings, binding.2.Composed good) :
      Ready good scope (.assertMatch language pattern term expected description)
  | assertTerm {language : Symbol} {bindings : List (Prepared × Term)} {depths : Depths}
      {template : Template} {expected : Term} {description : String}
      (each : ∀ binding ∈ bindings, scope.Suits good language binding.1 ∧ binding.2.Composed good)
      (constants : template.Constants depths (Term.Composed good)) (wanted : expected.Composed good) :
      Ready good scope (.assertTerm language bindings depths template expected description)
  | assertReduction {relation function : Symbol} {term : Term} {expected : List Term}
      {description : String} (composed : term.Composed good)
      (wanted : ∀ term ∈ expected, term.Composed good) :
      Ready good scope (.assertReduction relation function term expected description)
  | foreignSource {path : String} : Ready good scope (.foreignSource path)

/-- The function that a form defines under a name that was drawn before. -/
def PreparedForm.function? : PreparedForm → Option Symbol
  | .relation _ function .. => some function
  | .metafunction _ function .. => some function
  | _ => none

theorem closes_entry (name : Symbol) (body : List Statement) (description : String)
    (kind : EntryKind) (span : Span) :
    Closes good languages name (entry name body description kind span) :=
  closes_define good languages name _ _ _

/-- The code of a form without a function of its own goes on with the compilation. -/
theorem continues_generate (ready : scope.Ready good languages) {form : PreparedForm}
    (fits : form.Ready good scope) (unnamed : form.function? = none) (span : Span) :
    Moves (Continues good languages) (generate scope span form) := by
  have lenient := lenient_continues good languages
  cases fits with
  | language => exact lenient.pure _
  | relation guard each => cases unnamed
  | metafunction guard each => cases unnamed
  | redexMatch suits composed =>
    refine lenient.bind (continues_topMatcher ready suits) fun _ => continues_drawn fun _ => ?_
    refine .bind (lenient.constant composed) fun _ _ _ _ => .withLocal fun _ => ?_
    dsimp only
    split
    · exact .withLocal fun _ => .bind (lenient.pure _) fun _ _ _ _ => closes_entry _ _ _ _ _
    · exact .bind (lenient.pure _) fun _ _ _ _ => closes_entry _ _ _ _ _
  | assertMatch suits composed wanted =>
    refine lenient.bind (continues_topMatcher ready suits) fun _ => continues_drawn fun _ => ?_
    refine .bind (lenient.constant composed) fun _ _ _ _ => ?_
    iterate 2 refine .withLocal fun _ => ?_
    refine .bind (lenient.mapM fun bindings listed => ?_) fun _ _ _ _ => .withLocal fun _ => ?_
    · exact continues_expectedBindings _ (wanted bindings listed)
    · exact .bind (continues_raiseMismatch _ _ _) fun _ _ _ _ => closes_entry _ _ _ _ _
  | assertTerm each constants wanted =>
    refine continues_drawn fun _ => .withLocal fun _ => ?_
    refine .bind (lenient.mapM fun binding listed => ?_) fun _ _ _ _ => ?_
    · exact continues_mergeBinding ready (each binding listed).1 (each binding listed).2 _
    · refine .bind (continues_construction constants) fun _ _ _ _ => .withLocal fun _ => ?_
      refine .bind (lenient.constant wanted) fun _ _ _ _ => .withLocal fun _ => ?_
      exact .bind (continues_raiseTerm _ _) fun _ _ _ _ => closes_entry _ _ _ _ _
  | assertReduction composed wanted =>
    refine continues_drawn fun _ => .bind (lenient.constant composed) fun _ _ _ _ => ?_
    iterate 2 refine .withLocal fun _ => ?_
    refine .bind (lenient.mapM fun term listed => ?_) fun _ _ _ _ => .withLocal fun _ => ?_
    · exact lenient.bind (lenient.constant (wanted term listed)) fun _ => lenient.pure _
    · exact .bind (continues_raiseMismatch _ _ _) fun _ _ _ _ => closes_entry _ _ _ _ _
  | foreignSource => exact lenient.pure _

/-- The code of a form with a function of its own defines the function. -/
theorem closes_generate (ready : scope.Ready good languages) {form : PreparedForm}
    (fits : form.Ready good scope) {function : Symbol} (named : form.function? = some function)
    (span : Span) : Closes good languages function (generate scope span form) := by
  cases fits with
  | relation guard each =>
    cases named
    exact closes_relation ready guard each _ _
  | metafunction guard each =>
    cases named
    exact closes_metafunction ready guard each _ _
  | _ => cases named

end Program

end Reduct
