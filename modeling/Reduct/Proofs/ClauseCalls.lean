import Reduct.Proofs.ClauseRuns

/-!
# Calls of relations and metafunctions

A call of the function of a relation or of a metafunction follows the clauses: whatever it returns
is their outcome, and it returns where it has to. This does not depend on what was called before.
-/

namespace Reduct

namespace Machine

/-- A call follows a meaning that is told by levels. Whatever it returns is the outcome at some
level, but a limit of calls under way may refuse it. It returns under a limit, and without one if
there is an outcome and the searches for matches end. Only a list of at least half as many values
as can be counted may cut it short. -/
structure Follows {α : Type} (machine : Machine) (function : Symbol) (argument : Term)
    (meaning : Nat → Attempt α) (shows : α → Value → Store → Prop) (searches : Prop) : Prop where
  value : ∀ fuel value after, machine.call fuel function [.term argument] = (.ok value, after) →
    ∃ level result, meaning level = some (.ok result) ∧ shows result value after.store
  failure : ∀ fuel cause after,
    machine.call fuel function [.term argument] = (.error (.error cause), after) →
    (∃ level, meaning level = some (.error cause)) ∨
      ∃ most, machine.calls.limit = some most ∧ cause = .stackOverflow most
  defined : ∀ fuel cause after,
    machine.call fuel function [.term argument] ≠ (.error (.misuse cause), after)
  limited : machine.calls.limit ≠ none → ∃ enough, ∀ fuel, enough ≤ fuel → ∀ after,
    machine.call fuel function [.term argument] = (.error .exhausted, after) → after.store.Crowded
  unlimited : ∀ level, (meaning level).isSome = true → machine.calls.limit = none → searches →
    ∃ enough, ∀ fuel, enough ≤ fuel → ∀ after,
      machine.call fuel function [.term argument] = (.error .exhausted, after) →
        after.store.Crowded

/-- A call with any arguments follows a meaning that is told by levels, as a call with one term
does. -/
structure Obeys {α : Type} (machine : Machine) (function : Symbol) (arguments : List Value)
    (meaning : Nat → Attempt α) (shows : α → Value → Store → Prop) (searches : Prop) : Prop where
  value : ∀ fuel value after, machine.call fuel function arguments = (.ok value, after) →
    ∃ level result, meaning level = some (.ok result) ∧ shows result value after.store
  failure : ∀ fuel cause after,
    machine.call fuel function arguments = (.error (.error cause), after) →
    (∃ level, meaning level = some (.error cause)) ∨
      ∃ most, machine.calls.limit = some most ∧ cause = .stackOverflow most
  defined : ∀ fuel cause after,
    machine.call fuel function arguments ≠ (.error (.misuse cause), after)
  limited : machine.calls.limit ≠ none → ∃ enough, ∀ fuel, enough ≤ fuel → ∀ after,
    machine.call fuel function arguments = (.error .exhausted, after) → after.store.Crowded
  unlimited : ∀ level, (meaning level).isSome = true → machine.calls.limit = none → searches →
    ∃ enough, ∀ fuel, enough ≤ fuel → ∀ after,
      machine.call fuel function arguments = (.error .exhausted, after) → after.store.Crowded

theorem Obeys.follows {α : Type} {machine : Machine} {function : Symbol} {argument : Term}
    {meaning : Nat → Attempt α} {shows : α → Value → Store → Prop} {searches : Prop}
    (obeys : machine.Obeys function [.term argument] meaning shows searches) :
    machine.Follows function argument meaning shows searches :=
  ⟨obeys.value, obeys.failure, obeys.defined, obeys.limited, obeys.unlimited⟩

end Machine

namespace Program.Compilation

open Construction Attempt

variable {forms : List Form} {prints : Bool} {compilation : Compilation forms prints}
  {machine : Machine} {host : Host}

theorem Hosts.moved (hosts : compilation.Hosts machine host) (store : Store) (calls : CallStack)
    (journal : Journal) : compilation.Hosts (machine.moved store calls journal) host where
  carries := hosts.carries.moved store calls journal
  same := hosts.same
  proper := hosts.proper
  free := hosts.free

/-- What code does wherever metafunctions come to what they mean, it does in calls: it follows the
levels of the metafunctions. -/
theorem Hosts.obeys {α : Type} (read : ∀ form ∈ forms, form.Read)
    (unmarked : ∀ form ∈ forms, form.Unmarked) (hosts : compilation.Hosts machine host)
    {function : Symbol} {arguments : List Value}
    (meaning : (Symbol → Term → Attempt Term) → Attempt α) {shows : α → Value → Store → Prop}
    (performs : ∀ {judgement : Judgement} {ends : Prop} {apply : Symbol → Term → Attempt Term},
      compilation.Supports judgement machine host ends apply →
      Fine ends judgement.excuses (meaning apply) →
      Performs judgement machine function arguments machine.store fun value after =>
        ∃ result, meaning apply = some (.ok result) ∧ shows result value after) :
    machine.Obeys function arguments
      (fun level => meaning ((compilation.world host).applyAt level)) shows
      (∀ name language, compilation.languages.find? name = some language →
        language.HeadsRanked) := by
  let world := compilation.world host
  let fails : EvalError → Prop :=
    fun cause => ∃ level, meaning (world.applyAt level) = some (.error cause)
  let gives : Value → Store → Prop := fun value after =>
    ∃ level result, meaning (world.applyAt level) = some (.ok result) ∧ shows result value after
  have levels : ∀ {judgement : Judgement} {ends : Prop} (level : Nat),
      compilation.Supports judgement machine host ends (world.applyAt level) →
      (∀ cause, fails cause → judgement.excuses cause) →
      (ends → (meaning (world.applyAt level)).isSome = true) →
      Performs judgement machine function arguments machine.store gives := by
    intro judgement ends level supports excused some_
    have fine : Fine ends judgement.excuses (meaning (world.applyAt level)) :=
      ⟨some_, fun cause failed => excused cause ⟨level, failed⟩⟩
    refine (performs supports fine).weaken ?_
    rintro value after ⟨result, meant, shown⟩
    exact ⟨level, result, meant, shown⟩
  have steps : ∀ fuel, Machine.Answers (.under machine.calls.limit fails) False (fun _ => True)
      machine gives (machine.call fuel function arguments) := by
    intro fuel
    have supports := hosts.supports_of_descends read unmarked
      (descends_upTo (.under machine.calls.limit fails) False) (fun _ => rfl) fuel
    exact Machine.answers_upTo rfl (levels fuel supports (fun _ => .inl) False.elim)
  refine ⟨?_, ?_, ?_, ?_, ?_⟩
  · intro fuel value after returned
    have answer := steps fuel
    rw [returned] at answer
    obtain ⟨store, journal, rfl, given⟩ := answer.of_value
    exact given
  · intro fuel cause after failed
    have answer := steps fuel
    rw [failed] at answer
    obtain ⟨store, journal, rfl, excused⟩ := answer.of_failure
    exact excused
  · intro fuel cause after misused
    have answer := steps fuel
    rw [misused] at answer
    cases answer with
    | misuse never => exact never
  · intro limited
    obtain ⟨most, limit⟩ := Option.ne_none_iff_exists'.mp limited
    have supports := hosts.supports_of_descends read unmarked (descends_near most fails)
      (fun _ => rfl) most
    have near : (Policy.near most fails most).admits machine.calls := ⟨limit, Nat.le_add_left _ _⟩
    obtain ⟨enough, answers⟩ :=
      Machine.answers_total near (levels most supports (fun _ => .inl) False.elim)
    refine ⟨enough, fun fuel above after cut => ?_⟩
    have answer := answers fuel above
    rw [cut] at answer
    cases answer with
    | exhausted crowded => exact crowded
  · intro level some_ unlimited ranked
    have supports := hosts.supports_total read unmarked (.under machine.calls.limit fails) ranked level
    obtain ⟨enough, answers⟩ :=
      Machine.answers_total rfl (levels level supports (fun _ => .inl) fun _ => some_)
    refine ⟨enough, fun fuel above after cut => ?_⟩
    have answer := answers fuel above
    rw [cut] at answer
    cases answer with
    | exhausted crowded => exact crowded

/-- The same of a call with one term. -/
theorem Hosts.follows {α : Type} (read : ∀ form ∈ forms, form.Read)
    (unmarked : ∀ form ∈ forms, form.Unmarked) (hosts : compilation.Hosts machine host)
    {function : Symbol} {argument : Term} (meaning : (Symbol → Term → Attempt Term) → Attempt α)
    {shows : α → Value → Store → Prop}
    (performs : ∀ {judgement : Judgement} {ends : Prop} {apply : Symbol → Term → Attempt Term},
      compilation.Supports judgement machine host ends apply →
      Fine ends judgement.excuses (meaning apply) →
      Performs judgement machine function [.term argument] machine.store fun value after =>
        ∃ result, meaning apply = some (.ok result) ∧ shows result value after) :
    machine.Follows function argument
      (fun level => meaning ((compilation.world host).applyAt level)) shows
      (∀ name language, compilation.languages.find? name = some language →
        language.HeadsRanked) :=
  Machine.Obeys.follows (hosts.obeys read unmarked meaning performs)

/-- A name stands for the one definition that a form gives under it. -/
theorem find?_of_mem (compilation : Compilation forms prints) {δ : Type} {pick : Form → Option δ}
    {nameOf : δ → Symbol} (named : ∀ form definition, pick form = some definition →
      form.body.defined? = some (nameOf definition)) {form : Form} (listed : form ∈ forms)
    {definition : δ} (picked : pick form = some definition) :
    (forms.filterMap pick).find? (fun other => nameOf other = nameOf definition) =
      some definition := by
  have distinct := (nodup_defined compilation.named).1
  clear compilation
  induction forms with
  | nil => cases listed
  | cons first rest ih =>
    have others : (rest.filterMap (·.body.defined?)).Nodup :=
      distinct.sublist ((List.sublist_cons_self first rest).filterMap _)
    rcases List.mem_cons.mp listed with rfl | after
    · rw [List.filterMap_cons, picked]
      exact List.find?_cons_of_pos (decide_eq_true rfl)
    · have found := ih after others
      cases defines : pick first with
      | none => rwa [List.filterMap_cons, defines]
      | some other =>
        have differ : nameOf other ≠ nameOf definition := by
          intro same
          rw [List.filterMap_cons, named first other defines] at distinct
          refine (List.nodup_cons.mp distinct).1 (List.mem_filterMap.mpr ⟨form, after, ?_⟩)
          rw [named form definition picked, same]
        rw [List.filterMap_cons, defines]
        exact (List.find?_cons_of_neg (by simpa using differ)).trans found

/-- A name stands for the one metafunction that a form defines under it. -/
theorem metafunction?_of_mem (host : Host) {definition : MetafunctionDefinition} {span : Span}
    (listed : ⟨.metafunction definition, span⟩ ∈ forms) :
    (compilation.world host).metafunction? definition.name = some definition := by
  refine compilation.find?_of_mem (fun form other defines => ?_) listed rfl
  rw [Form.metafunction?_eq_some.mp defines]
  rfl

/-- The function of a metafunction gives what the metafunction comes to. -/
theorem Supports.metafunction_performs (read : ∀ form ∈ forms, form.Read)
    (unmarked : ∀ form ∈ forms, form.Unmarked) {judgement : Judgement} {ends : Prop}
    {apply : Symbol → Term → Attempt Term}
    (supports : compilation.Supports judgement machine host ends apply)
    {definition : MetafunctionDefinition} {span : Span}
    (listed : ⟨.metafunction definition, span⟩ ∈ forms) {function : Symbol}
    (named : compilation.names.metafunctions.find? definition.name = some function)
    {content : Term} (proper : content.Proper) (fine : Fine ends judgement.excuses
      ((compilation.world host).applied apply definition content)) (store : Store) :
    Performs judgement machine function [.term content] store (GivesTerm store fun term =>
      (compilation.world host).applied apply definition content = some (.ok term) ∧
        term.Proper) := by
  obtain ⟨other, body, known, written, runs⟩ := metafunction_code read unmarked host named
  rw [compilation.metafunction?_of_mem host listed] at known
  cases known
  exact ⟨_, supports.carries.functions _ _ _ written, rfl, runs supports proper fine store⟩

/-- A call of the function of a relation follows the clauses. -/
theorem Hosts.relation_follows (read : ∀ form ∈ forms, form.Read)
    (unmarked : ∀ form ∈ forms, form.Unmarked) (hosts : compilation.Hosts machine host)
    {definition : RelationDefinition} {span : Span} (listed : ⟨.relation definition, span⟩ ∈ forms)
    {function : Symbol} (named : compilation.names.relations.find? definition.name = some function)
    {term : Term} (proper : term.Proper) :
    machine.Follows function term
      (fun level => (compilation.world host).relateAt level definition term)
      (fun terms value after => ∃ place, value = .list place ∧
        Display.term.Lists after place terms)
      (∀ name language, compilation.languages.find? name = some language →
        language.HeadsRanked) := by
  refine hosts.follows read unmarked (fun apply =>
    (compilation.world host).related apply definition term) fun supports fine => ?_
  refine (supports.relation_performs read unmarked listed named proper fine _).weaken ?_
  rintro value after ⟨place, terms, rfl, ⟨meant, _⟩, _, lists⟩
  exact ⟨terms, meant, place, rfl, lists⟩

/-- A call of the function of a metafunction follows the clauses. -/
theorem Hosts.metafunction_follows (read : ∀ form ∈ forms, form.Read)
    (unmarked : ∀ form ∈ forms, form.Unmarked) (hosts : compilation.Hosts machine host)
    {definition : MetafunctionDefinition} {span : Span}
    (listed : ⟨.metafunction definition, span⟩ ∈ forms) {function : Symbol}
    (named : compilation.names.metafunctions.find? definition.name = some function)
    {arguments : Term} (proper : arguments.Proper) :
    machine.Follows function arguments (fun level => (compilation.world host).applied
        ((compilation.world host).applyAt level) definition arguments)
      (fun term value _ => value = .term term)
      (∀ name language, compilation.languages.find? name = some language →
        language.HeadsRanked) := by
  refine hosts.follows read unmarked (fun apply =>
    (compilation.world host).applied apply definition arguments) fun supports fine => ?_
  refine (supports.metafunction_performs read unmarked listed named proper fine _).weaken ?_
  rintro value after ⟨term, rfl, ⟨meant, _⟩, _⟩
  exact ⟨term, meant, rfl⟩

end Program.Compilation

namespace Program

open Construction

instance (form : Form) : Decidable form.Unmarked :=
  inferInstanceAs (Decidable (_ ∧ _))

/-- A relation that applies a metafunction. -/
def swapping : String :=
  "(define-language L (n ::= number)) (define-metafunction L [(f n_1) n_1]) " ++
    "(define-reduction-relation R L (--> (n_1 n_2) ((f n_2) n_1)))"

/-- Whether the forms define a language, a metafunction and a relation, without marked symbols and
without host functions. -/
def appliesPlainly (stages : List Form × Draft) : Bool :=
  stages.1.all (fun form => decide form.Unmarked) &&
    (stages.1.flatMap fun form => form.templates.flatMap Template.foreigns).isEmpty &&
    match stages.1 with
    | [_, ⟨.metafunction _, _⟩, ⟨.relation _, _⟩] => true
    | _ => false

/-- The specification is accepted, with the forms that its text shows. -/
theorem exists_swapping : ∃ accepted : Accepted swapping false,
    (∀ form ∈ accepted.forms, form.Unmarked) ∧
      (accepted.compilation.world .empty).foreigns = [] ∧
      ∃ language metafunction span relation other, accepted.forms =
        [language, ⟨.metafunction metafunction, span⟩, ⟨.relation relation, other⟩] := by
  have tested : (stages? swapping false).any appliesPlainly = true := by decide +kernel
  match stages : stages? swapping false with
  | none =>
    rw [stages] at tested
    cases tested
  | some (forms, draft) =>
    rw [stages] at tested
    obtain ⟨accepted, rfl, rfl⟩ := exists_accepted (by decide +kernel) stages
    simp only [Option.any_some, appliesPlainly, Bool.and_eq_true] at tested
    obtain ⟨⟨plain, hostless⟩, shaped⟩ := tested
    refine ⟨accepted, fun form listed => of_decide_eq_true (List.all_eq_true.mp plain form listed),
      List.isEmpty_iff.mp hostless, ?_⟩
    split at shaped
    · rename_i same
      exact ⟨_, _, _, _, _, same⟩
    · cases shaped

end Program

end Reduct
