import Reduct.Proofs.InstantiationOrder
import Reduct.Proofs.Nesting
import Reduct.Proofs.PatternSearch
import Reduct.Proofs.WrittenForms

/-!
# What relations and metafunctions mean

The clauses of a specification decide what its relations and metafunctions give. A relation gives
the results of all of its cases, each with all of its matches. A metafunction gives what its first
case with a match builds from the first match. Templates apply metafunctions in turn, so what a
metafunction comes to is said by levels: at no level it has no outcome, and at the next one its
clauses apply the metafunctions of the level before.
-/

namespace Reduct

/-- The relation that a form defines. -/
def Form.relation? (form : Form) : Option RelationDefinition :=
  match form.body with
  | .relation definition => some definition
  | _ => none

theorem Form.relation?_eq_some {form : Form} {definition : RelationDefinition} :
    form.relation? = some definition ↔ form.body = .relation definition := by
  unfold relation?
  split
  · rename_i same
    rw [same, Option.some.injEq, FormBody.relation.injEq]
  · rename_i other
    constructor
    · nofun
    · exact fun same => absurd same (other definition)

/-- The metafunction that a form defines. -/
def Form.metafunction? (form : Form) : Option MetafunctionDefinition :=
  match form.body with
  | .metafunction definition => some definition
  | _ => none

theorem Form.metafunction?_eq_some {form : Form} {definition : MetafunctionDefinition} :
    form.metafunction? = some definition ↔ form.body = .metafunction definition := by
  unfold metafunction?
  split
  · rename_i same
    rw [same, Option.some.injEq, FormBody.metafunction.injEq]
  · rename_i other
    constructor
    · nofun
    · exact fun same => absurd same (other definition)

/-- What a host function comes to. -/
def Host.outcome (host : Host) (function : Symbol) (arguments : List Term) : Attempt Term :=
  match host.find? function with
  | none => throw (.unknownFunction function)
  | some body =>
    match body arguments with
    | .ok term => pure term
    | .error message => throw (.foreign function message)

/-- A pattern with its symbols decided, if it can be resolved. -/
def Language.resolved? (language : Language) (pattern : Pattern) : Option Pattern :=
  match ((pattern.resolve language.names).run .empty).1 with
  | .ok resolved => some resolved
  | .error _ => none

/-- What the clauses of a specification refer to: its forms, its languages with all of their
literal variables, and the host. -/
structure World where
  forms : List Form
  languages : Table Language
  host : Host

namespace World

open Template

variable (world : World)

/-- The metafunction of a name. -/
def metafunction? (name : Symbol) : Option MetafunctionDefinition :=
  (world.forms.filterMap Form.metafunction?).find? fun definition => definition.name = name

/-- The names of the metafunctions. -/
def metafunctions : SymbolSet :=
  .ofList ((world.forms.filterMap Form.metafunction?).map (·.name))

/-- A pattern of a language with its symbols decided. -/
def resolved? (language : Symbol) (pattern : Pattern) : Option Pattern :=
  (world.languages.find? language).bind fun found => found.resolved? pattern

/-- The matches of a pattern of a language at a term, in order. -/
noncomputable def found (language : Symbol) (pattern : Pattern) (term : Term) :
    Attempt (List Bindings) :=
  ExceptT.lift do
    let language ← world.languages.find? language
    let resolved ← language.resolved? pattern
    language.search resolved term

/-- The depths of the symbols that some patterns of a language bind. -/
def depths (language : Symbol) (patterns : List Pattern) : Depths :=
  .ofList (patterns.flatMap fun pattern =>
    ((world.resolved? language pattern).map Pattern.nestings).getD [])

/-- A term has to match a pattern, if there is one. -/
noncomputable def require (language : Symbol) (lead : String) (term : Term) :
    Option Pattern → Attempt Unit
  | none => pure ()
  | some pattern => do
    let found ← world.found language pattern term
    if found.isEmpty then throw (.raised (lead ++ term.text))

section Clauses

variable (apply : Symbol → Term → Attempt Term)

/-- What a template refers to. -/
def scene (depths : Depths) (assignment : Assignment) : Scene where
  depths := depths
  metafunctions := world.metafunctions
  assignment := assignment
  apply := apply
  call := world.host.outcome

/-- What a template builds from a match of a pattern. -/
def built (language : Symbol) (pattern : Pattern) (template : Template) (bindings : Bindings) :
    Attempt Term :=
  instantiate (world.scene apply (world.depths language [pattern]) bindings.lookup) template

/-- The results of a case of a relation: one for every match, in order. -/
noncomputable def caseResults (language : Symbol) (term : Term) (case : ReductionCase) :
    Attempt (List Term) := do
  let found ← world.found language case.pattern term
  found.mapM (world.built apply language case.pattern case.template)

/-- What a relation gives at a term: the results of its cases, in order. -/
noncomputable def related (definition : RelationDefinition) (term : Term) :
    Attempt (List Term) := do
  world.require definition.language (definition.name ++ ": term not in domain: ") term
    definition.domain
  let results ← definition.cases.mapM (world.caseResults apply definition.language term)
  pure results.flatten

/-- What the first case with a match builds from its first match. -/
noncomputable def firstCase (language : Symbol) (lead : String) (arguments : Term) :
    List MetafunctionCase → Attempt Term
  | [] => throw (.raised (lead ++ arguments.text))
  | case :: rest => do
    match ← world.found language (.sequence case.arguments) arguments with
    | [] => firstCase language lead arguments rest
    | first :: _ => world.built apply language (.sequence case.arguments) case.template first

/-- What a metafunction gives for the sequence of its arguments. -/
noncomputable def applied (definition : MetafunctionDefinition) (arguments : Term) :
    Attempt Term := do
  world.require definition.language (definition.name ++ ": arguments not in domain: ") arguments
    (definition.contract.map fun contract => .sequence contract.domain)
  let result ← world.firstCase apply definition.language
    (definition.name ++ ": no clauses matched for ") arguments definition.cases
  world.require definition.language (definition.name ++ ": result not in codomain: ") result
    (definition.contract.map (·.codomain))
  pure result

end Clauses

/-- What a metafunction comes to with applications nested to a level. -/
noncomputable def applyAt : Nat → Symbol → Term → Attempt Term
  | 0, _, _ => none
  | level + 1, function, arguments =>
    match world.metafunction? function with
    | some definition => world.applied (applyAt level) definition arguments
    | none => none

/-- What a relation comes to with applications nested to a level. -/
noncomputable def relateAt (level : Nat) (definition : RelationDefinition) (term : Term) :
    Attempt (List Term) :=
  world.related (world.applyAt level) definition term

/-- The metafunction of a name is one that a form defines under it. -/
theorem exists_of_metafunction? {world : World} {name : Symbol}
    {definition : MetafunctionDefinition} (found : world.metafunction? name = some definition) :
    definition.name = name ∧ ∃ span, ⟨.metafunction definition, span⟩ ∈ world.forms := by
  obtain ⟨⟨body, span⟩, listed, defines⟩ := List.mem_filterMap.mp (List.mem_of_find?_eq_some found)
  obtain rfl : body = .metafunction definition := Form.metafunction?_eq_some.mp defines
  exact ⟨by simpa using List.find?_some found, span, listed⟩

section Levels

open Attempt

variable {world : World} {one two : Symbol → Term → Attempt Term}
  (below : ∀ function argument, Below (one function argument) (two function argument))

include below

theorem scene_below (depths : Depths) (assignment : Assignment) (names : List Symbol) :
    Scene.Below names (world.scene one depths assignment) (world.scene two depths assignment) where
  depths _ _ := rfl
  metafunctions _ := rfl
  assignment := rfl
  apply := below
  call := rfl

theorem built_below (language : Symbol) (pattern : Pattern) (template : Template)
    (bindings : Bindings) : Below (world.built one language pattern template bindings)
      (world.built two language pattern template bindings) :=
  instantiate_below (scene_below below _ _ _)

/-- A relation keeps its outcome where metafunctions have more of them. -/
theorem related_below (definition : RelationDefinition) (term : Term) :
    Below (world.related one definition term) (world.related two definition term) := by
  refine (Below.refl _).bind fun _ _ => Below.bind (Below.mapM fun case _ => ?_) fun _ _ => .refl _
  exact (Below.refl _).bind fun _ _ => Below.mapM fun bindings _ => built_below below _ _ _ bindings

theorem firstCase_below (language : Symbol) (lead : String) (arguments : Term)
    (cases_ : List MetafunctionCase) :
    Below (world.firstCase one language lead arguments cases_)
      (world.firstCase two language lead arguments cases_) := by
  induction cases_ with
  | nil => exact .refl _
  | cons case rest ih =>
    refine (Below.refl _).bind fun found _ => ?_
    cases found with
    | nil => exact ih
    | cons first others => exact built_below below _ _ _ first

/-- A metafunction keeps its outcome where those that it applies have more of them. -/
theorem applied_below (definition : MetafunctionDefinition) (arguments : Term) :
    Below (world.applied one definition arguments) (world.applied two definition arguments) :=
  (Below.refl _).bind fun _ _ => (firstCase_below below _ _ _ _).bind fun _ _ => .refl _

end Levels

section Levels

open Attempt

variable {world : World}

theorem applyAt_below_succ (level : Nat) (function : Symbol) (arguments : Term) :
    Below (world.applyAt level function arguments) (world.applyAt (level + 1) function arguments) := by
  induction level generalizing function arguments with
  | zero => exact below_none _
  | succ level ih =>
    rw [applyAt, applyAt]
    cases world.metafunction? function with
    | none => exact below_none _
    | some definition => exact applied_below ih definition arguments

/-- A metafunction keeps its outcome at higher levels. -/
theorem applyAt_below {lower level : Nat} (le : lower ≤ level) (function : Symbol)
    (arguments : Term) :
    Below (world.applyAt lower function arguments) (world.applyAt level function arguments) := by
  induction le with
  | refl => exact .refl _
  | step _ ih => exact ih.trans (applyAt_below_succ _ _ _)

/-- A relation keeps its outcome at higher levels. -/
theorem relateAt_below {lower level : Nat} (le : lower ≤ level) (definition : RelationDefinition)
    (term : Term) :
    Below (world.relateAt lower definition term) (world.relateAt level definition term) :=
  related_below (applyAt_below le) definition term

/-- A metafunction has one outcome at most. -/
theorem applyAt_unique {level other : Nat} {function : Symbol} {arguments : Term}
    {first second : Except EvalError Term} (one : world.applyAt level function arguments = some first)
    (two : world.applyAt other function arguments = some second) : first = second := by
  have here := applyAt_below (Nat.le_max_left level other) function arguments _ one
  have there := applyAt_below (Nat.le_max_right level other) function arguments _ two
  exact Option.some.inj (here.symm.trans there)

/-- A relation has one outcome at most. -/
theorem relateAt_unique {level other : Nat} {definition : RelationDefinition} {term : Term}
    {first second : Except EvalError (List Term)}
    (one : world.relateAt level definition term = some first)
    (two : world.relateAt other definition term = some second) : first = second := by
  have here := relateAt_below (Nat.le_max_left level other) definition term _ one
  have there := relateAt_below (Nat.le_max_right level other) definition term _ two
  exact Option.some.inj (here.symm.trans there)

end Levels

/-- The host functions that the templates of the forms call, with the way in which their results
enter. -/
def foreigns : List (Symbol × InsertMode) :=
  world.forms.flatMap fun form => form.templates.flatMap Template.foreigns

/-- The failures that clauses have: raised messages, failures of the host functions that are
called and calls of functions that the host lacks, contexts without a hole, ellipses of variables
of different lengths, and results of host functions that are spliced and are no sequences. -/
inductive Fails : EvalError → Prop
  | raised (message : String) : Fails (.raised message)
  | foreign {function : Symbol} {mode : InsertMode} (used : (function, mode) ∈ world.foreigns)
      (message : String) : Fails (.foreign function message)
  | unknown {function : Symbol} {mode : InsertMode} (used : (function, mode) ∈ world.foreigns) :
      Fails (.unknownFunction function)
  | closed (context : Term) : Fails (.term (.noHole context))
  | uneven (expected found : Nat) : Fails (.term (.inconsistentCounts expected found))
  | spliced {function : Symbol} {arguments : List Term} {content : Term}
      (used : (function, .splice) ∈ world.foreigns)
      (given : world.host.outcome function arguments = some (.ok content)) :
      Fails (.term (.wrongKind .sequence content))

section Failures

open Attempt

variable {world : World}

theorem fails_outcome {function : Symbol} {mode : InsertMode} {arguments : List Term}
    {cause : EvalError} (used : (function, mode) ∈ world.foreigns)
    (failed : world.host.outcome function arguments = some (.error cause)) : world.Fails cause := by
  unfold Host.outcome at failed
  split at failed
  · cases failed
    exact .unknown used
  · split at failed
    · cases failed
    · cases failed
      exact .foreign used _

/-- Searching for matches does not fail. -/
theorem not_found_error {language : Symbol} {pattern : Pattern} {term : Term} {cause : EvalError} :
    world.found language pattern term ≠ some (.error cause) := by
  intro failed
  obtain ⟨_, _, same⟩ := lift_eq_some.mp failed
  cases same

/-- What a term has to match is decided by whether there are matches. -/
theorem require_some {language : Symbol} {pattern : Pattern} {term : Term} {found : List Bindings}
    (searched : world.found language pattern term = some (.ok found)) (lead : String) :
    world.require language lead term (some pattern) =
      if found.isEmpty then some (.error (.raised (lead ++ term.text))) else some (.ok ()) := by
  rw [require, bind_of_ok searched]
  split <;> rfl

theorem fails_require {language : Symbol} {lead : String} {term : Term} {pattern : Option Pattern}
    {cause : EvalError} (failed : world.require language lead term pattern = some (.error cause)) :
    world.Fails cause := by
  cases pattern with
  | none => cases failed
  | some pattern =>
    rcases bind_error.mp failed with searching | ⟨found, _, raised⟩
    · exact absurd searching not_found_error
    · split at raised
      · cases raised
        exact .raised _
      · cases raised

variable {apply : Symbol → Term → Attempt Term}

/-- What a template of a form fails with. -/
theorem fails_template (applying : ∀ function argument cause,
      apply function argument = some (.error cause) → world.Fails cause)
    {form : Form} (listed : form ∈ world.forms) {template : Template}
    (among : template ∈ form.templates) {depths : Depths} {assignment : Assignment}
    {cause : EvalError}
    (failed : instantiate (world.scene apply depths assignment) template = some (.error cause)) :
    world.Fails cause := by
  have within : ∀ used ∈ template.foreigns, used ∈ world.foreigns := fun used inside =>
    List.mem_flatMap.mpr ⟨form, listed, List.mem_flatMap.mpr ⟨template, among, inside⟩⟩
  cases (fails_instantiate failed).mono within with
  | apply failed => exact applying _ _ _ failed
  | call used failed => exact fails_outcome used failed
  | uneven => exact .uneven _ _
  | closed => exact .closed _
  | spliced used given => exact .spliced used given

/-- What a relation fails with. -/
theorem fails_related (applying : ∀ function argument cause,
      apply function argument = some (.error cause) → world.Fails cause)
    {definition : RelationDefinition} {span : Span}
    (listed : ⟨.relation definition, span⟩ ∈ world.forms) {term : Term} {cause : EvalError}
    (failed : world.related apply definition term = some (.error cause)) : world.Fails cause := by
  rcases bind_error.mp failed with guarded | ⟨_, _, failed⟩
  · exact fails_require guarded
  rcases bind_error.mp failed with results | ⟨_, _, never⟩
  · obtain ⟨case, among, failed⟩ := exists_of_mapM_error results
    rcases bind_error.mp failed with searching | ⟨found, _, failed⟩
    · exact absurd searching not_found_error
    · obtain ⟨bindings, _, failed⟩ := exists_of_mapM_error failed
      exact fails_template applying listed (List.mem_map_of_mem among) failed
  · cases never

/-- What a metafunction fails with. -/
theorem fails_applied (applying : ∀ function argument cause,
      apply function argument = some (.error cause) → world.Fails cause)
    {definition : MetafunctionDefinition} {span : Span}
    (listed : ⟨.metafunction definition, span⟩ ∈ world.forms) {arguments : Term}
    {cause : EvalError}
    (failed : world.applied apply definition arguments = some (.error cause)) :
    world.Fails cause := by
  have first : ∀ cases_ : List MetafunctionCase, (∀ case ∈ cases_, case ∈ definition.cases) →
      ∀ lead, world.firstCase apply definition.language lead arguments cases_ =
        some (.error cause) → world.Fails cause := by
    intro cases_ within lead failed
    induction cases_ with
    | nil =>
      cases failed
      exact .raised _
    | cons case rest ih =>
      obtain ⟨here, later⟩ := List.forall_mem_cons.mp within
      rcases bind_error.mp failed with searching | ⟨found, _, failed⟩
      · exact absurd searching not_found_error
      · cases found with
        | nil => exact ih later failed
        | cons bindings others =>
          exact fails_template applying listed (List.mem_map_of_mem here) failed
  rcases bind_error.mp failed with guarded | ⟨_, _, failed⟩
  · exact fails_require guarded
  rcases bind_error.mp failed with building | ⟨_, _, failed⟩
  · exact first _ (fun _ among => among) _ building
  rcases bind_error.mp failed with guarded | ⟨_, _, never⟩
  · exact fails_require guarded
  · cases never

/-- What a metafunction fails with at any level. -/
theorem fails_applyAt (level : Nat) : ∀ (function : Symbol) (arguments : Term) (cause : EvalError),
    world.applyAt level function arguments = some (.error cause) → world.Fails cause := by
  induction level with
  | zero => nofun
  | succ level ih =>
    intro function arguments cause failed
    rw [applyAt] at failed
    cases known : world.metafunction? function with
    | none =>
      rw [known] at failed
      cases failed
    | some definition =>
      rw [known] at failed
      obtain ⟨_, span, listed⟩ := exists_of_metafunction? known
      exact fails_applied ih listed failed

/-- What a relation fails with at any level. -/
theorem fails_relateAt {level : Nat} {definition : RelationDefinition} {span : Span}
    (listed : ⟨.relation definition, span⟩ ∈ world.forms) {term : Term} {cause : EvalError}
    (failed : world.relateAt level definition term = some (.error cause)) : world.Fails cause :=
  fails_related (fails_applyAt level) listed failed

end Failures

end World

end Reduct
