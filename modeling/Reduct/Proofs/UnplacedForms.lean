import Reduct.Proofs.AliasCycles
import Reduct.Proofs.CompiledWorlds

/-!
# Forms without their places

The places of forms, of rules and of cases are for faults only. Definitions that differ in nothing
else give languages that differ in the places of their rules, and a language accepts the patterns
that it accepted before, whatever literal variables it met and whatever fresh names it gave out.
-/

namespace Reduct

/-! ## Forms -/

/-- The rule of a grammar, wherever it stands. -/
def RuleDefinition.unplaced (rule : RuleDefinition) : RuleDefinition :=
  { rule with span := default }

/-- The grammar, wherever its rules stand. -/
def LanguageDefinition.unplaced (definition : LanguageDefinition) : LanguageDefinition :=
  { definition with rules := definition.rules.map RuleDefinition.unplaced }

/-- The case of a relation, wherever it stands. -/
def ReductionCase.unplaced (case : ReductionCase) : ReductionCase :=
  { case with span := default }

/-- The relation, wherever its cases stand. -/
def RelationDefinition.unplaced (definition : RelationDefinition) : RelationDefinition :=
  { definition with cases := definition.cases.map ReductionCase.unplaced }

/-- The case of a metafunction, wherever it stands. -/
def MetafunctionCase.unplaced (case : MetafunctionCase) : MetafunctionCase :=
  { case with span := default }

/-- The metafunction, wherever its cases stand. -/
def MetafunctionDefinition.unplaced (definition : MetafunctionDefinition) :
    MetafunctionDefinition :=
  { definition with cases := definition.cases.map MetafunctionCase.unplaced }

/-- What a form says, wherever its parts stand. -/
def FormBody.unplaced : FormBody → FormBody
  | .language definition => .language definition.unplaced
  | .relation definition => .relation definition.unplaced
  | .metafunction definition => .metafunction definition.unplaced
  | other => other

namespace FormBody

theorem exists_of_unplaced_language {definition : LanguageDefinition} {body : FormBody}
    (same : (language definition).unplaced = body.unplaced) :
    ∃ other, body = .language other ∧ definition.unplaced = other.unplaced := by
  cases body with
  | language other => exact ⟨other, rfl, language.inj same⟩
  | _ => cases same

theorem exists_of_unplaced_relation {definition : RelationDefinition} {body : FormBody}
    (same : (relation definition).unplaced = body.unplaced) :
    ∃ other, body = .relation other ∧ definition.unplaced = other.unplaced := by
  cases body with
  | relation other => exact ⟨other, rfl, relation.inj same⟩
  | _ => cases same

theorem exists_of_unplaced_metafunction {definition : MetafunctionDefinition} {body : FormBody}
    (same : (metafunction definition).unplaced = body.unplaced) :
    ∃ other, body = .metafunction other ∧ definition.unplaced = other.unplaced := by
  cases body with
  | metafunction other => exact ⟨other, rfl, metafunction.inj same⟩
  | _ => cases same

theorem defined?_unplaced (body : FormBody) : body.unplaced.defined? = body.defined? := by
  cases body <;> rfl

/-- A form that defines nothing has no places inside. -/
theorem eq_of_unplaced {one two : FormBody} (same : one.unplaced = two.unplaced)
    (plain : one.defined? = none) : two = one := by
  have other : two.defined? = none := by
    rw [← defined?_unplaced, ← same, defined?_unplaced, plain]
  have whole : ∀ {body : FormBody}, body.defined? = none → body.unplaced = body := by
    intro body nameless
    cases body with
    | language | relation | metafunction => cases nameless
    | _ => rfl
  rw [← whole plain, same, whole other]

end FormBody

/-! ## Languages -/

/-- The rule, wherever it stands. -/
def Rule.unplaced (rule : Rule) : Rule := { rule with span := default }

namespace Language

/-- Languages agree on all but literal variables, fresh names and the places of rules. -/
structure Kin (one two : Language) : Prop where
  names : one.names = two.names
  closures : one.closures = two.closures
  holes : one.holes = two.holes
  rules : one.rules.map Rule.unplaced = two.rules.map Rule.unplaced

namespace Kin

theorem refl (language : Language) : language.Kin language := ⟨rfl, rfl, rfl, rfl⟩

theorem symm {one two : Language} (kin : one.Kin two) : two.Kin one :=
  ⟨kin.names.symm, kin.closures.symm, kin.holes.symm, kin.rules.symm⟩

theorem trans {one two three : Language} (first : one.Kin two) (second : two.Kin three) :
    one.Kin three :=
  ⟨first.names.trans second.names, first.closures.trans second.closures,
    first.holes.trans second.holes, first.rules.trans second.rules⟩

theorem prepare (language : Language) (pattern : Pattern) :
    (language.prepare pattern).2.Kin language := by
  obtain ⟨_, _, _, same⟩ := language.prepare_snd pattern
  rw [same]
  exact ⟨rfl, rfl, rfl, rfl⟩

/-- The alternatives of the rules are the same. -/
theorem alternativesOf {one two : Language} (kin : one.Kin two) :
    one.alternativesOf = two.alternativesOf := by
  have found : ∀ (language : Language) (name : Symbol), language.alternativesOf name =
      (((language.rules.map Rule.unplaced).find? (·.name = name)).map fun rule =>
        rule.alternatives.map (·.pattern)).getD [] := by
    intro language name
    unfold Language.alternativesOf rule?
    rw [List.find?_map]
    change _ = (((language.rules.find? (·.name = name)).map Rule.unplaced).map _).getD []
    cases language.rules.find? (·.name = name) <;> rfl
  funext name
  rw [found, found, kin.rules]

end Kin

/-- Distinct names without underscores are all that is asked of the rules. -/
theorem checkNames_iff {rules : List RuleDefinition} : checkNames [] rules = .ok () ↔
    (rules.map (·.name)).Nodup ∧ ∀ name ∈ rules.map (·.name), Symbol.hasSuffix name = false := by
  have plain : ∀ {seen rules : List RuleDefinition}, checkNames seen rules = .ok () →
      ∀ name ∈ rules.map (·.name), Symbol.hasSuffix name = false := by
    intro seen rules passed
    induction rules generalizing seen with
    | nil => nofun
    | cons first rest ih =>
      rw [checkNames] at passed
      obtain ⟨_, here, others⟩ := Except.bind_eq_ok.mp passed
      refine List.forall_mem_cons.mpr ⟨?_, ih others⟩
      unfold checkName at here
      split at here
      · cases here
      · rename_i suffix
        exact Bool.eq_false_iff.mpr suffix
  constructor
  · exact fun passed => ⟨(nodup_of_checkNames passed).1, plain passed⟩
  · rintro ⟨distinct, suffixes⟩
    exact checkNames_eq_ok distinct (List.forall_mem_map.mp suffixes)

theorem resolveRules_of_unplaced {names : SymbolSet} {rules : List RuleDefinition} :
    ∀ {others : List RuleDefinition},
      rules.map RuleDefinition.unplaced = others.map RuleDefinition.unplaced →
      ∀ {before : SymbolSet} {result : List (Symbol × List Pattern) × SymbolSet},
        resolveRules names rules before = .ok result →
        resolveRules names others before = .ok result := by
  induction rules with
  | nil =>
    intro others same before result accepted
    rw [List.map_eq_nil_iff.mp same.symm]
    exact accepted
  | cons rule rest ih =>
    intro others same before result accepted
    obtain ⟨other, later, rfl, here, there⟩ := List.map_eq_cons_iff.mp same.symm
    obtain ⟨name, alternatives, span⟩ := rule
    cases other
    cases here
    rw [resolveRules] at accepted ⊢
    dsimp only at accepted ⊢
    obtain ⟨resolved, first, accepted⟩ := Except.bind_eq_ok.mp accepted
    obtain ⟨found, second, made⟩ := Except.bind_eq_ok.mp accepted
    refine Except.bind_eq_ok.mpr ⟨resolved, locate_eq_ok.mpr (locate_eq_ok.mp first), ?_⟩
    exact Except.bind_eq_ok.mpr ⟨found, ih there.symm second, made⟩

theorem finishRules_of_unplaced {language : Language} {grammar : Grammar}
    {rules : List RuleDefinition} : ∀ {others : List RuleDefinition},
      rules.map RuleDefinition.unplaced = others.map RuleDefinition.unplaced →
      ∀ {before after : FreshNames} {finished : List Rule},
        language.finishRules grammar rules before = .ok (finished, after) →
        ∃ results, language.finishRules grammar others before = .ok (results, after) ∧
          results.map Rule.unplaced = finished.map Rule.unplaced := by
  induction rules with
  | nil =>
    intro others same before after finished accepted
    rw [List.map_eq_nil_iff.mp same.symm]
    exact ⟨finished, accepted, rfl⟩
  | cons rule rest ih =>
    intro others same before after finished accepted
    obtain ⟨other, later, rfl, here, there⟩ := List.map_eq_cons_iff.mp same.symm
    obtain ⟨name, alternatives, span⟩ := rule
    obtain ⟨_, _, place⟩ := other
    cases here
    rw [finishRules] at accepted
    obtain ⟨⟨made, middle⟩, first, accepted⟩ := Except.bind_eq_ok.mp accepted
    obtain ⟨⟨found, last⟩, second, same⟩ := Except.bind_eq_ok.mp accepted
    cases same
    obtain ⟨results, finishes, alike⟩ := ih there.symm second
    refine ⟨⟨name, made, (language.holes.find? name).join, place⟩ :: results, ?_,
      List.cons_eq_cons.mpr ⟨rfl, alike⟩⟩
    rw [finishRules]
    refine Except.bind_eq_ok.mpr ⟨_, locate_eq_ok.mpr (locate_eq_ok.mp first), ?_⟩
    exact Except.bind_eq_ok.mpr ⟨_, finishes, rfl⟩

/-- A language before its rules are finished. -/
def bare (definition : LanguageDefinition) (resolved : List (Symbol × List Pattern))
    (mentioned : SymbolSet) : Language where
  name := definition.name
  rules := []
  names := definition.names
  mentioned := mentioned
  closures := .ofGrammar (Grammar.ofRules resolved)
  holes := (Grammar.ofRules resolved).holeTable
  fresh := .empty

/-- A definition that is accepted has passed all checks. -/
theorem define_eq_ok {definition : LanguageDefinition} {span : Span} {language : Language} :
    define definition span = .ok language ↔ checkNames [] definition.rules = .ok () ∧
      ∃ resolved mentioned rules fresh,
        resolveRules definition.names definition.rules .empty = .ok (resolved, mentioned) ∧
        (Grammar.ofRules resolved).aliasCycle? = none ∧
        (bare definition resolved mentioned).finishRules (Grammar.ofRules resolved)
          definition.rules .empty = .ok (rules, fresh) ∧
        { bare definition resolved mentioned with rules := rules, fresh := fresh } = language := by
  unfold define
  constructor
  · intro accepted
    obtain ⟨_, checked, accepted⟩ := Except.bind_eq_ok.mp accepted
    obtain ⟨⟨resolved, mentioned⟩, resolves, accepted⟩ := Except.bind_eq_ok.mp accepted
    dsimp only at accepted
    split at accepted
    · cases accepted
    · rename_i acyclic
      obtain ⟨⟨rules, fresh⟩, finishes, made⟩ := Except.bind_eq_ok.mp accepted
      exact ⟨checked, resolved, mentioned, rules, fresh, resolves, acyclic, finishes,
        Except.ok.inj made⟩
  · rintro ⟨checked, resolved, mentioned, rules, fresh, resolves, acyclic, finishes, rfl⟩
    refine Except.bind_eq_ok.mpr ⟨(), checked, ?_⟩
    refine Except.bind_eq_ok.mpr ⟨(resolved, mentioned), resolves, ?_⟩
    dsimp only
    rw [acyclic]
    exact Except.bind_eq_ok.mpr ⟨(rules, fresh), finishes, rfl⟩

/-- Definitions that differ in places only give languages that do. -/
theorem exists_define_of_unplaced {definition other : LanguageDefinition}
    (same : definition.unplaced = other.unplaced) {span place : Span} {language : Language}
    (accepted : define definition span = .ok language) :
    ∃ result, define other place = .ok result ∧ result.Kin language := by
  obtain ⟨name, rules⟩ := definition
  obtain ⟨_, others⟩ := other
  obtain ⟨rfl, alike⟩ := LanguageDefinition.mk.inj same
  have names : others.map (·.name) = rules.map (·.name) := by
    have each := congrArg (List.map RuleDefinition.name) alike
    rwa [List.map_map, List.map_map, eq_comm] at each
  have known : LanguageDefinition.names ⟨name, others⟩ = LanguageDefinition.names ⟨name, rules⟩ :=
    congrArg SymbolSet.ofList names
  obtain ⟨checked, resolved, mentioned, finished, fresh, resolves, acyclic, finishes, rfl⟩ :=
    define_eq_ok.mp accepted
  have start : bare ⟨name, others⟩ resolved mentioned = bare ⟨name, rules⟩ resolved mentioned := by
    unfold bare
    rw [known]
  obtain ⟨results, ends, rest⟩ := finishRules_of_unplaced alike finishes
  have accepts : define ⟨name, others⟩ place =
      .ok { bare ⟨name, rules⟩ resolved mentioned with rules := results, fresh := fresh } := by
    refine define_eq_ok.mpr ⟨?_, resolved, mentioned, results, fresh, ?_, acyclic, ?_, ?_⟩
    · rw [checkNames_iff] at checked ⊢
      rwa [names]
    · rw [known]
      exact resolveRules_of_unplaced alike resolves
    · rw [start]
      exact ends
    · rw [start]
  exact ⟨_, accepts, rfl, rfl, rfl, rest⟩

/-- The states of languages whose definitions differ in places only. -/
theorem Stage.kin {definition other : LanguageDefinition}
    (same : definition.unplaced = other.unplaced) {span place : Span} {one two : Language}
    (stage : Stage definition span one) (later : Stage other place two) : one.Kin two := by
  have start : ∀ {definition : LanguageDefinition} {span : Span} {language : Language},
      Stage definition span language →
      ∃ first, Language.define definition span = .ok first ∧ language.Kin first := by
    intro definition span language stage
    induction stage with
    | define accepted => exact ⟨_, accepted, .refl _⟩
    | prepare _ pattern ih =>
      obtain ⟨first, accepted, kin⟩ := ih
      exact ⟨first, accepted, (Kin.prepare _ pattern).trans kin⟩
  obtain ⟨first, accepted, before⟩ := start stage
  obtain ⟨second, also, after⟩ := start later
  obtain ⟨result, again, kin⟩ := exists_define_of_unplaced same accepted
  rw [again] at also
  cases also
  exact before.trans (kin.symm.trans after.symm)

end Language

end Reduct
